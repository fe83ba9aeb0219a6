import UpanLibs.TextArea.Fixed.FixedCoherence

/-!
The caret moves of a coherent `FixedTextArea`: where each of them puts the caret and
what it leaves of the scroll offset.
-/
namespace FixedText

open TextInput
namespace FixedTextArea

variable {c : Config} {s t : FixedTextArea}

theorem Inv.caretAt (inv : Inv c s) {x y : Nat} {z : Int} {line : FixedTextLine}
    (here : s.lines[y]? = some line) (within : x ≤ line.size) (bound : s.ScrollBound z) :
    Inv c (s.caretAt c x y z) :=
  ⟨Coherent.caretAt inv.coherent.content here within bound, inv.shaped, inv.settled⟩

theorem Inv.scrolledTo (inv : Inv c s) {z : Int} (bound : s.ScrollBound z) :
    Inv c (s.scrolledTo z) :=
  ⟨inv.coherent.scrolledTo bound, inv.shaped, inv.settled⟩

theorem Inv.select (inv : Inv c s) (area : SelectedArea) :
    Inv c { s with selectedArea := area } :=
  ⟨⟨inv.coherent.caret, inv.coherent.base, inv.coherent.content, inv.coherent.scroll⟩,
    inv.shaped, inv.settled⟩

theorem Inv.copied (inv : Inv c s) (chars : List FixedCharacter) :
    Inv c { s with copyBuffer := chars } :=
  ⟨⟨inv.coherent.caret, inv.coherent.base, inv.coherent.content, inv.coherent.scroll⟩,
    inv.shaped, inv.settled⟩

theorem Inv.room (inv : Inv c s) : 0 < s.maxLineChars := by
  obtain ⟨_, _, wide, _, max⟩ := inv.settled
  rw [max]
  exact c.calcMaxLineChars_pos wide

def OnLine (s : FixedTextArea) (line : FixedTextLine) : Prop :=
  s.lines[s.characterPos.y]? = some line ∧ s.characterPos.x ≤ line.size

theorem Coherent.drawn_on (h : Coherent c s) {line : FixedTextLine} (on : s.OnLine line) :
    Drawn c s.characterPos.x s := by
  obtain ⟨line', here, drawn⟩ := h.drawn
  cases Option.some.inj (here.symm.trans on.1)
  rwa [Nat.min_eq_left on.2] at drawn

theorem Drawn.caretAt_self {k : Nat} (h : Drawn c k s) (column : s.characterPos.x = k) :
    s.caretAt c k s.characterPos.y s.scrollY = s := by
  subst column
  have cursor : (⟨c.columnX s.characterPos.x, c.linesHeight (s.characterPos.y + 1) - 1 - s.scrollY⟩ :
      UIPosition Int) = s.cursorPos := by
    rw [← h.column, ← h.base]
  simp only [FixedTextArea.caretAt, cursor]

theorem Coherent.put (h : Coherent c s) (x : Nat) :
    updateCursorPosition ⟨x, s.characterPos.y⟩ ⟨c.columnX x, s.cursorPos.y⟩ s =
      .ok (s.caretAt c x s.characterPos.y s.scrollY) := by
  rw [updateCursorPosition_ok h.row h.row, h.base]
  simp only [FixedTextArea.caretAt]

theorem inlinemovehome_ok (h : Coherent c s) :
    inlinemovehome c s = .ok (s.caretAt c 0 s.characterPos.y s.scrollY) := by
  obtain ⟨line, here, drawn⟩ := h.drawn
  unfold inlinemovehome
  by_cases home : s.characterPos.x = 0
  · rw [home, Nat.zero_min] at drawn
    rw [if_pos home, drawn.caretAt_self home]
  · rw [if_neg home, ← c.columnX_zero, h.put]

theorem inlinemoveend_ok (h : Coherent c s) {line : FixedTextLine} (on : s.OnLine line) :
    inlinemoveend c s = .ok (s.caretAt c line.size s.characterPos.y s.scrollY) := by
  have drawn := h.drawn_on on
  unfold inlinemoveend
  simp only [get_ok_iff.mpr on.1, bind, Except.bind]
  by_cases end_ : s.characterPos.x = line.size
  · rw [if_pos end_, ← end_, drawn.caretAt_self rfl]
  · have reach : s.characterPos.x + (line.size - s.characterPos.x) = line.size :=
      Nat.add_sub_cancel' on.2
    rw [if_neg end_, drawn.column, ← c.columnX_add, reach, h.put]

theorem moveleft_inside (h : Coherent c s) {line : FixedTextLine} (on : s.OnLine line)
    {charX : Nat} (inside : s.characterPos.x = charX + 1) :
    moveleft c s = .ok (s.caretAt c charX s.characterPos.y s.scrollY) := by
  have drawn := h.drawn_on on
  have column := drawn.column
  rw [inside, c.columnX_succ] at column
  have left : s.cursorPos.x - c.charWidth = c.columnX charX := by omega
  unfold moveleft
  rw [inside]
  simp only
  rw [left, h.put]

theorem moveleft_up (h : Coherent c s) {line : FixedTextLine} (on : s.OnLine line)
    (home : s.characterPos.x = 0) {charY : Nat} (above : s.characterPos.y = charY + 1)
    {prev : FixedTextLine} (here : s.lines[charY]? = some prev) :
    ∃ z, moveleft c s = .ok (s.caretAt c prev.size charY z) ∧ s.ScrollBound z ∧
      (z = s.scrollY ∨ z = c.linesHeight charY) := by
  obtain ⟨z, up, bound, shown⟩ := moveup_ok (h.drawn_on on) above here
  rw [home, Nat.zero_min] at up
  have coherent : Coherent c (s.caretAt c 0 charY z) :=
    Coherent.caretAt h.content here (Nat.zero_le _) bound
  refine ⟨z, ?_, bound, shown⟩
  unfold moveleft
  rw [home]
  simp only [above, Nat.add_eq_zero_iff, Nat.one_ne_zero, and_false, if_false, up, bind,
    Except.bind]
  exact inlinemoveend_ok coherent ⟨here, Nat.zero_le _⟩

theorem moveleft_start (home : s.characterPos.x = 0) (top : s.characterPos.y = 0) :
    moveleft c s = .ok s := by
  unfold moveleft
  rw [home]
  simp [top]

def Moved (c : Config) (s t : FixedTextArea) : Prop :=
  ∃ x y z line, s.lines[y]? = some line ∧ x ≤ line.size ∧ s.ScrollBound z ∧
    t = s.caretAt c x y z

theorem Moved.inv (moved : Moved c s t) (inv : Inv c s) : Inv c t := by
  obtain ⟨x, y, z, line, here, within, bound, rfl⟩ := moved
  exact inv.caretAt here within bound

theorem Moved.trans {s' : FixedTextArea} (first : Moved c s s') (second : Moved c s' t) :
    Moved c s t := by
  obtain ⟨x, y, z, line, here, within, bound, rfl⟩ := second
  obtain ⟨x', y', z', line', here', within', bound', rfl⟩ := first
  exact ⟨x, y, z, line, here, within, bound, caretAt_caretAt _ _ _ _ _ _ _⟩

theorem Moved.of_scrolled {s' : FixedTextArea} (moved : Moved c s' t)
    (same : s' = s.scrolledTo s'.scrollY) : Moved c s t := by
  obtain ⟨x, y, z, line, here, within, bound, rfl⟩ := moved
  rw [same] at here bound
  refine ⟨x, y, z, line, here, within, bound, ?_⟩
  rw [same]
  rfl

theorem Moved.scrolledTo {s' : FixedTextArea} (moved : Moved c s s') {z : Int}
    (bound : s'.ScrollBound z) : Moved c s (s'.scrolledTo z) := by
  obtain ⟨x, y, z', line, here, within, _, rfl⟩ := moved
  refine ⟨x, y, z, line, here, within, bound, ?_⟩
  have base : c.linesHeight (y + 1) - 1 - z' - (z - z') = c.linesHeight (y + 1) - 1 - z := by
    omega
  simp only [FixedTextArea.scrolledTo, FixedTextArea.caretAt, base]

theorem moved_self (h : Coherent c s) {line : FixedTextLine} (on : s.OnLine line) :
    Moved c s s := by
  exact ⟨s.characterPos.x, s.characterPos.y, s.scrollY, line, on.1, on.2, h.scroll,
    ((h.drawn_on on).caretAt_self rfl).symm⟩

theorem moveup_moved (h : Coherent c s) {line : FixedTextLine} (on : s.OnLine line) :
    ∃ t, moveup c s = .ok t ∧ Moved c s t := by
  cases above : s.characterPos.y with
  | zero => exact ⟨s, moveup_top above, moved_self h on⟩
  | succ charY =>
    have row := h.row
    have here : s.lines[charY]? = some s.lines[charY] := List.getElem?_eq_getElem (by omega)
    obtain ⟨z, up, bound, _⟩ := moveup_ok (h.drawn_on on) above here
    exact ⟨_, up, _, _, z, _, here, Nat.min_le_right _ _, bound, rfl⟩

theorem movedown_moved (h : Coherent c s) {line : FixedTextLine} (on : s.OnLine line) :
    ∃ t, movedown c s = .ok t ∧ Moved c s t := by
  by_cases last : s.characterPos.y + 1 = s.lines.length
  · exact ⟨s, movedown_last last, moved_self h on⟩
  · have row := h.row
    have here : s.lines[s.characterPos.y + 1]? = some s.lines[s.characterPos.y + 1] :=
      List.getElem?_eq_getElem (by omega)
    obtain ⟨z, down, bound⟩ := movedown_ok (h.drawn_on on) here
    exact ⟨_, down, _, _, z, _, here, Nat.min_le_right _ _, bound, rfl⟩

theorem moveleft_moved (h : Coherent c s) {line : FixedTextLine} (on : s.OnLine line) :
    ∃ t, moveleft c s = .ok t ∧ Moved c s t := by
  cases column : s.characterPos.x with
  | succ charX =>
    have within := on.2
    exact ⟨_, moveleft_inside h on column, _, _, _, line, on.1, by omega, h.scroll, rfl⟩
  | zero =>
    cases above : s.characterPos.y with
    | zero => exact ⟨s, moveleft_start column above, moved_self h on⟩
    | succ charY =>
      have row := h.row
      have here : s.lines[charY]? = some s.lines[charY] := List.getElem?_eq_getElem (by omega)
      obtain ⟨z, left, bound, _⟩ := moveleft_up h on column above here
      exact ⟨_, left, _, _, z, _, here, Nat.le_refl _, bound, rfl⟩

theorem moveright_inside (h : Coherent c s) {line : FixedTextLine} (on : s.OnLine line)
    (inside : s.characterPos.x < line.size) :
    moveright c s = .ok (s.caretAt c (s.characterPos.x + 1) s.characterPos.y s.scrollY) := by
  have drawn := h.drawn_on on
  unfold moveright
  simp only [get_ok_iff.mpr on.1, bind, Except.bind]
  rw [if_neg (Nat.ne_of_lt inside), drawn.column, ← c.columnX_succ, h.put]

theorem moveright_last {line : FixedTextLine} (on : s.OnLine line)
    (end_ : s.characterPos.x = line.size) (last : s.characterPos.y + 1 = s.lines.length) :
    moveright c s = .ok s := by
  unfold moveright
  simp only [get_ok_iff.mpr on.1, bind, Except.bind]
  rw [if_pos end_, if_pos last]

theorem moveright_down (h : Coherent c s) {line next : FixedTextLine} (on : s.OnLine line)
    (end_ : s.characterPos.x = line.size) (here : s.lines[s.characterPos.y + 1]? = some next) :
    ∃ z, moveright c s = .ok (s.caretAt c 0 (s.characterPos.y + 1) z) ∧ s.ScrollBound z := by
  have more : s.characterPos.y + 1 ≠ s.lines.length :=
    Nat.ne_of_lt (List.getElem?_eq_some_iff.mp here).1
  have home : Coherent c (s.caretAt c 0 s.characterPos.y s.scrollY) :=
    Coherent.caretAt h.content on.1 (Nat.zero_le _) h.scroll
  have drawn : Drawn c 0 (s.caretAt c 0 s.characterPos.y s.scrollY) :=
    home.drawn_on (show OnLine _ line from ⟨on.1, Nat.zero_le _⟩)
  obtain ⟨z, down, bound⟩ := movedown_ok drawn here
  refine ⟨z, ?_, bound⟩
  unfold moveright
  simp only [get_ok_iff.mpr on.1, bind, Except.bind]
  rw [if_pos end_, if_neg more, inlinemovehome_ok h]
  simp only [Nat.zero_min] at down
  exact down

theorem moveright_moved (h : Coherent c s) {line : FixedTextLine} (on : s.OnLine line) :
    ∃ t, moveright c s = .ok t ∧ Moved c s t := by
  by_cases end_ : s.characterPos.x = line.size
  · by_cases last : s.characterPos.y + 1 = s.lines.length
    · exact ⟨s, moveright_last on end_ last, moved_self h on⟩
    · have row := h.row
      have here : s.lines[s.characterPos.y + 1]? = some s.lines[s.characterPos.y + 1] :=
        List.getElem?_eq_getElem (by omega)
      obtain ⟨z, down, bound⟩ := moveright_down h on end_ here
      exact ⟨_, down, _, _, z, _, here, Nat.zero_le _, bound, rfl⟩
  · have within := on.2
    exact ⟨_, moveright_inside h on (by omega), s.characterPos.x + 1, s.characterPos.y, s.scrollY,
      line, on.1, by omega, h.scroll, rfl⟩

end FixedTextArea
end FixedText
