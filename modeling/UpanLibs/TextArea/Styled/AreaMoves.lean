import UpanLibs.TextArea.Styled.TextArea
import UpanLibs.TextArea.Styled.LinesRealign

/-!
The caret moves and the scrolling of a `TextArea`: where the caret's line exists they
come to an end, change no line and leave the caret inside a line.
-/
namespace StyledText

open TextInput Fallible

def InText (lines : List TextLine) (p : UIPosition Nat) : Prop :=
  ∃ line, lines[p.y]? = some line ∧ p.x ≤ line.size

theorem InText.row {lines : List TextLine} {p : UIPosition Nat} (h : InText lines p) :
    p.y < lines.length := by
  obtain ⟨line, here, _⟩ := h
  exact (List.getElem?_eq_some_iff.mp here).1

theorem inText_home {lines : List TextLine} {y : Nat} (row : y < lines.length) :
    InText lines ⟨0, y⟩ :=
  ⟨lines[y], List.getElem?_eq_getElem row, Nat.zero_le _⟩

theorem inText_at {lines : List TextLine} {x y : Nat} {line : TextLine}
    (here : lines[y]? = some line) (inside : x ≤ line.size) : InText lines ⟨x, y⟩ :=
  ⟨line, here, inside⟩

theorem inText_end {lines : List TextLine} {y : Nat} {line : TextLine}
    (here : lines[y]? = some line) : InText lines ⟨line.size, y⟩ :=
  inText_at here (Nat.le_refl _)

theorem get_ok {lines : List TextLine} {y : Nat} (row : y < lines.length) :
    get lines y = .ok lines[y] :=
  get_ok_iff.mpr (List.getElem?_eq_getElem row)

theorem get_returns {lines : List TextLine} {y : Nat} (row : y < lines.length) :
    Returns (get lines y) fun line => lines[y]? = some line :=
  ⟨_, get_ok row, List.getElem?_eq_getElem row⟩

theorem columnBelow_le (cursorPosX : Int) (characters : List Character) (charX : Nat)
    (cursorX : Int) :
    (columnBelow cursorPosX characters charX cursorX).1 ≤ charX + characters.length := by
  induction characters generalizing charX cursorX with
  | nil => exact Nat.le_refl _
  | cons ch characters ih =>
    rw [columnBelow]
    split
    · exact Nat.le_add_right _ _
    · have := ih (charX + 1) (cursorX + ch.chWidth)
      rw [List.length_cons]
      omega

theorem columnBelow_ge (cursorPosX : Int) (characters : List Character) (charX : Nat)
    (cursorX : Int) : charX ≤ (columnBelow cursorPosX characters charX cursorX).1 := by
  induction characters generalizing charX cursorX with
  | nil => exact Nat.le_refl _
  | cons ch characters ih =>
    rw [columnBelow]
    split
    · exact Nat.le_refl _
    · exact Nat.le_of_succ_le (ih (charX + 1) (cursorX + ch.chWidth))

theorem columnIn_le (c : Config) (line : TextLine) (cursorPosX : Int) :
    (columnIn c line cursorPosX).1 ≤ line.size := by
  have := columnBelow_le cursorPosX line.characters 0 c.leftMargin
  rwa [Nat.zero_add] at this

theorem findLine_lt (virtualY : Int) (lineIndex : Nat) (y : Int) {lines : List TextLine}
    (some_ : lines ≠ []) :
    (findLine virtualY lineIndex y lines).1 < lineIndex + lines.length := by
  fun_induction findLine virtualY lineIndex y lines with
  | case1 lineIndex y line next below => simp
  | case2 lineIndex y line next below further ih =>
    have := ih (by simp)
    rw [List.length_cons]
    omega
  | case3 lineIndex y lines single =>
    have := List.length_pos_iff.mpr some_
    simpa using this

theorem getLineInfo_ok {lines : List TextLine} (some_ : lines ≠ []) (baseY rows : Int) :
    Returns (getLineInfo lines baseY rows) fun info => info.lineIndex.toNat < lines.length := by
  have row := findLine_lt (baseY + rows) 0 0 some_
  rw [Nat.zero_add] at row
  unfold getLineInfo
  simp only [List.getElem?_eq_getElem row]
  exact .ok (by simpa using row)

namespace TextArea

variable {c : Config} {s t : TextArea}

def Row (s : TextArea) : Prop := s.characterPos.y < s.lines.length

theorem updateCursor_ok (row : s.Row) : updateCursor s = .ok () := by
  simp only [updateCursor, get_ok row, bind, Except.bind]

theorem updateCursorPosition_ok (row : s.Row) {p : UIPosition Nat} (row' : p.y < s.lines.length)
    (q : UIPosition Int) :
    updateCursorPosition p q s = .ok { s with characterPos := p, cursorPos := q } := by
  have after : Row { s with characterPos := p, cursorPos := q } := row'
  simp only [updateCursorPosition, updateCursor_ok row, updateCursor_ok after, bind, Except.bind]

def Scrolled (s t : TextArea) : Prop :=
  ∃ cursorPos scrollY scrollHeight,
    t = { s with cursorPos := cursorPos, scrollY := scrollY, scrollHeight := scrollHeight }

theorem Scrolled.refl (s : TextArea) : Scrolled s s := ⟨_, _, _, rfl⟩

theorem Scrolled.trans {u : TextArea} (first : Scrolled s t) (second : Scrolled t u) :
    Scrolled s u := by
  obtain ⟨_, _, _, rfl⟩ := first
  obtain ⟨q, z, h, rfl⟩ := second
  exact ⟨q, z, h, rfl⟩

theorem Scrolled.row (h : Scrolled s t) (row : s.Row) : t.Row := by
  obtain ⟨_, _, _, rfl⟩ := h
  exact row

theorem vscroll_ok (row : s.Row) (rows : Int) : Returns (vscroll rows s) (Scrolled s) := by
  have shown (t : TextArea) (h : Scrolled s t) :
      Returns (updateCursor t >>= fun _ => .ok t) (Scrolled s) := by
    rw [updateCursor_ok (h.row row)]
    exact .ok h
  unfold vscroll
  simp only [updateCursor_ok row]
  refine shown _ ?_
  split <;> exact ⟨_, _, _, rfl⟩

theorem scrollToCoverEmptyArea_ok (row : s.Row) :
    Returns (scrollToCoverEmptyArea s) (Scrolled s) := by
  unfold scrollToCoverEmptyArea
  simp only
  split
  · exact vscroll_ok row _
  · exact .ok (.refl s)

theorem changeScrollHeight_ok (row : s.Row) (delta : Int) :
    Returns (changeScrollHeight delta s) (Scrolled s) := by
  unfold changeScrollHeight
  simp only
  generalize (if s.scrollHeight + delta < 0 then 0 else s.scrollHeight + delta) = height
  split
  · have grown : Scrolled s { s with scrollHeight := height } := ⟨_, _, _, rfl⟩
    exact (scrollToCoverEmptyArea_ok (grown.row row)).mono fun _ => grown.trans
  · exact .ok (.refl s)

theorem linesAdded_ok (row : s.Row) (added : Nat) : Returns (linesAdded added s) (Scrolled s) := by
  induction added generalizing s with
  | zero => exact .ok (.refl s)
  | succ added ih =>
    refine (changeScrollHeight_ok row _).bind fun t h => ?_
    exact (ih (h.row row)).mono fun _ => h.trans

theorem scrollToY_ok (row : s.Row) (curPosY : Int) :
    Returns (scrollToY curPosY s.characterPos.y s) (Scrolled s) := by
  unfold scrollToY
  split
  · simp only [get_ok row, bind, Except.bind]
    exact vscroll_ok row _
  · split
    · exact vscroll_ok row _
    · exact .ok (.refl s)

/-- The caret is at `p`, and what is seen of the text may have changed. -/
def Moved (s : TextArea) (p : UIPosition Nat) (t : TextArea) : Prop :=
  ∃ cursorPos scrollY scrollHeight, t = { s with
    characterPos := p, cursorPos := cursorPos, scrollY := scrollY, scrollHeight := scrollHeight }

/-- The move comes to an end with the caret inside the text. -/
def Moves (s : TextArea) (r : Except Fault TextArea) : Prop :=
  Returns r fun t => ∃ p, InText s.lines p ∧ Moved s p t

theorem Scrolled.moved (h : Scrolled s t) : Moved s s.characterPos t := h

theorem Moved.trans {u : TextArea} {p q : UIPosition Nat} (first : Moved s p t)
    (second : Moved t q u) : Moved s q u := by
  obtain ⟨_, _, _, rfl⟩ := first
  obtain ⟨a, b, d, rfl⟩ := second
  exact ⟨a, b, d, rfl⟩

theorem Moved.maxLineCharWidth {p : UIPosition Nat} (h : Moved s p t) :
    t.maxLineCharWidth = s.maxLineCharWidth := by
  obtain ⟨_, _, _, rfl⟩ := h
  rfl

theorem Moved.lines {p : UIPosition Nat} (h : Moved s p t) : t.lines = s.lines := by
  obtain ⟨_, _, _, rfl⟩ := h
  rfl

theorem Moved.characterPos {p : UIPosition Nat} (h : Moved s p t) : t.characterPos = p := by
  obtain ⟨_, _, _, rfl⟩ := h
  rfl

theorem moved_put (row : s.Row) (p : UIPosition Nat) (row' : p.y < s.lines.length)
    (q : UIPosition Int) : Returns (updateCursorPosition p q s) (Moved s p) :=
  ⟨_, updateCursorPosition_ok row row' q, _, _, _, rfl⟩

theorem moved_put_scroll (row : s.Row) (p : UIPosition Nat) (row' : p.y < s.lines.length)
    (q : UIPosition Int) (sy : Int) :
    Returns (updateCursorPosition p q s >>= fun t => .ok (updateScrollY sy t)) (Moved s p) := by
  rw [updateCursorPosition_ok row row' q]
  exact .ok ⟨_, _, _, rfl⟩

theorem moveup_moved (row : s.Row) {charY : Nat} (above : s.characterPos.y = charY + 1) :
    Returns (moveup c s) fun t => ∃ x, InText s.lines ⟨x, charY⟩ ∧ Moved s ⟨x, charY⟩ t := by
  unfold Row at row
  have row' : charY < s.lines.length := by omega
  have here : s.lines[charY]? = some s.lines[charY] := List.getElem?_eq_getElem row'
  have inside (x : Int) : InText s.lines ⟨(columnIn c s.lines[charY] x).1, charY⟩ :=
    ⟨_, here, columnIn_le c _ x⟩
  have put : Returns (moveup c s)
      (Moved s ⟨(columnIn c s.lines[charY] s.cursorPos.x).1, charY⟩) := by
    unfold moveup
    rw [above]
    simp only [get_ok (above ▸ row), get_ok row', bind, Except.bind]
    split
    · exact moved_put row _ row' _
    · exact moved_put_scroll row _ row' _ _
  exact put.mono fun t moved => ⟨_, inside _, moved⟩

theorem movedown_put {next : TextLine} (row : s.Row)
    (here : s.lines[s.characterPos.y + 1]? = some next) :
    Returns (movedown c s)
      (Moved s ⟨(columnIn c next s.cursorPos.x).1, s.characterPos.y + 1⟩) := by
  have row' := (List.getElem?_eq_some_iff.mp here).1
  unfold movedown
  simp only [if_neg (Nat.ne_of_lt row'), get_ok_iff.mpr here, bind, Except.bind]
  split
  · exact moved_put row _ row' _
  · exact moved_put_scroll row _ row' _ _

theorem movedown_moved (row : s.Row) (more : s.characterPos.y + 1 ≠ s.lines.length) :
    Returns (movedown c s) fun t => ∃ x, InText s.lines ⟨x, s.characterPos.y + 1⟩ ∧
      Moved s ⟨x, s.characterPos.y + 1⟩ t := by
  have row' : s.characterPos.y + 1 < s.lines.length := by
    unfold Row at row
    omega
  have here : s.lines[s.characterPos.y + 1]? = some s.lines[s.characterPos.y + 1] :=
    List.getElem?_eq_getElem row'
  exact (movedown_put row here).mono fun t moved =>
    ⟨_, ⟨_, here, columnIn_le c _ s.cursorPos.x⟩, moved⟩

theorem inlinemovehome_moved (row : s.Row) :
    Returns (inlinemovehome c s) (Moved s ⟨0, s.characterPos.y⟩) := by
  unfold inlinemovehome
  split
  next home =>
    refine .ok ⟨s.cursorPos, s.scrollY, s.scrollHeight, ?_⟩
    rw [← home]
  next => exact moved_put row ⟨0, s.characterPos.y⟩ row _

theorem inlinemoveend_moved {line : TextLine} (here : s.lines[s.characterPos.y]? = some line)
    (inside : s.characterPos.x ≤ line.size) :
    Returns (inlinemoveend s) (Moved s ⟨line.size, s.characterPos.y⟩) := by
  have row : s.Row := (List.getElem?_eq_some_iff.mp here).1
  unfold inlinemoveend
  simp only [get_ok_iff.mpr here, bind, Except.bind]
  split
  next end_ =>
    refine .ok ⟨s.cursorPos, s.scrollY, s.scrollHeight, ?_⟩
    rw [← end_]
  next =>
    have reach : s.characterPos.x + (line.characters.drop s.characterPos.x).length =
        line.size := by
      rw [List.length_drop]
      exact Nat.add_sub_cancel' inside
    rw [reach]
    exact moved_put row ⟨line.size, s.characterPos.y⟩ row _

theorem moved_home (row : s.Row) : Moves s (inlinemovehome c s) :=
  (inlinemovehome_moved row).mono fun _ moved => ⟨_, inText_home row, moved⟩

theorem moved_end (caret : InText s.lines s.characterPos) : Moves s (inlinemoveend s) := by
  obtain ⟨line, here, inside⟩ := caret
  exact (inlinemoveend_moved here inside).mono fun _ moved => ⟨_, inText_end here, moved⟩

theorem moved_up (caret : InText s.lines s.characterPos) : Moves s (moveup c s) := by
  cases above : s.characterPos.y with
  | zero =>
    unfold moveup
    rw [above]
    exact .ok ⟨_, caret, (Scrolled.refl s).moved⟩
  | succ charY =>
    exact (moveup_moved caret.row above).mono fun _ ⟨_, inside, moved⟩ => ⟨_, inside, moved⟩

theorem moved_down (caret : InText s.lines s.characterPos) : Moves s (movedown c s) := by
  by_cases last : s.characterPos.y + 1 = s.lines.length
  · unfold movedown
    rw [if_pos last]
    exact .ok ⟨_, caret, (Scrolled.refl s).moved⟩
  · exact (movedown_moved caret.row last).mono fun _ ⟨_, inside, moved⟩ => ⟨_, inside, moved⟩

theorem moveleft_moved (caret : InText s.lines s.characterPos) :
    Returns (moveleft c s) fun t => ∃ p, InText s.lines p ∧ Moved s p t ∧
      (∀ x, s.characterPos.x = x + 1 → p = ⟨x, s.characterPos.y⟩) ∧
      (s.characterPos.x = 0 → ∀ y, s.characterPos.y = y + 1 → p.y = y) := by
  obtain ⟨line, here, inside⟩ := caret
  have row : s.Row := (List.getElem?_eq_some_iff.mp here).1
  cases column : s.characterPos.x with
  | zero =>
    cases above : s.characterPos.y with
    | zero =>
      unfold moveleft
      rw [column]
      simp only [above, if_true]
      exact .ok ⟨_, ⟨line, here, inside⟩, (Scrolled.refl s).moved, by simp, by simp⟩
    | succ charY =>
      obtain ⟨t, up, x, ⟨prev, here', inside'⟩, moved⟩ := moveup_moved (c := c) row above
      unfold moveleft
      rw [column]
      simp only [above, Nat.add_eq_zero_iff, Nat.one_ne_zero, and_false, if_false, up]
      have at_ := moved.characterPos
      have here'' : t.lines[t.characterPos.y]? = some prev := by rwa [moved.lines, at_]
      refine (inlinemoveend_moved here'' (by rwa [at_])).mono fun u end_ => ?_
      rw [at_] at end_
      exact ⟨_, inText_end here', moved.trans end_, by simp,
        fun _ y y_ => Nat.succ.inj y_⟩
  | succ charX =>
    have inside' : charX < line.characters.length := by
      have size : line.size = line.characters.length := rfl
      omega
    unfold moveleft
    rw [column]
    simp only [get_ok_iff.mpr here, characterAt, List.getElem?_eq_getElem inside', bind,
      Except.bind]
    refine Returns.mono (moved_put row ⟨charX, s.characterPos.y⟩ row _) fun t moved =>
      ⟨_, inText_at here (Nat.le_of_lt inside'), moved, ?_, by simp⟩
    rintro x x_
    cases x_
    rfl

theorem moved_left (caret : InText s.lines s.characterPos) : Moves s (moveleft c s) :=
  (moveleft_moved caret).mono fun _ ⟨_, inside, moved, _⟩ => ⟨_, inside, moved⟩

theorem moved_right (caret : InText s.lines s.characterPos) : Moves s (moveright c s) := by
  obtain ⟨line, here, inside⟩ := caret
  have row : s.Row := (List.getElem?_eq_some_iff.mp here).1
  unfold moveright
  simp only [get_ok_iff.mpr here, bind, Except.bind]
  by_cases end_ : s.characterPos.x = line.size
  · rw [if_pos end_]
    by_cases last : s.characterPos.y + 1 = s.lines.length
    · rw [if_pos last]
      exact .ok ⟨_, ⟨line, here, inside⟩, (Scrolled.refl s).moved⟩
    · obtain ⟨t, home, moved⟩ := inlinemovehome_moved (c := c) row
      have caret' : InText t.lines t.characterPos := by
        rw [moved.lines, moved.characterPos]
        exact inText_home row
      rw [if_neg last, home]
      refine (moved_down (c := c) caret').mono fun u ⟨p, inside', moved'⟩ => ⟨p, ?_, ?_⟩
      · rwa [moved.lines] at inside'
      · exact moved.trans moved'
  · have inside' : s.characterPos.x < line.characters.length :=
      Nat.lt_of_le_of_ne inside end_
    rw [if_neg end_]
    simp only [characterAt, List.getElem?_eq_getElem inside']
    exact Returns.mono (moved_put row ⟨s.characterPos.x + 1, s.characterPos.y⟩ row _)
      fun t moved => ⟨_, inText_at here inside', moved⟩

theorem moveToLine_moved (row : s.Row) {info : LineInfo}
    (line : info.lineIndex.toNat < s.lines.length) :
    Returns (moveToLine c info s) (Moved s ⟨0, info.lineIndex.toNat⟩) :=
  moved_put row _ line _

theorem moved_pageup (caret : InText s.lines s.characterPos) : Moves s (pageup c s) := by
  have row : s.Row := caret.row
  unfold pageup
  refine (get_returns row).bind fun curLine _ => ?_
  refine Returns.bind (vscroll_ok row _) fun t scrolled => ?_
  have row' := scrolled.row row
  have some_ : t.lines ≠ [] := List.length_pos_iff.mp (Nat.lt_of_le_of_lt (Nat.zero_le _) row')
  refine Returns.bind (getLineInfo_ok some_ _ _) fun info line => ?_
  have same := scrolled.moved.lines
  refine (moveToLine_moved row' line).mono fun u moved => ⟨_, ?_, scrolled.moved.trans moved⟩
  exact inText_home (same ▸ line)

theorem moved_pagedown (caret : InText s.lines s.characterPos) : Moves s (pagedown c s) := by
  have row : s.Row := caret.row
  unfold pagedown
  refine (get_returns row).bind fun curLine _ => ?_
  refine Returns.bind (vscroll_ok row _) fun t scrolled => ?_
  have row' := scrolled.row row
  have some_ : t.lines ≠ [] := List.length_pos_iff.mp (Nat.lt_of_le_of_lt (Nat.zero_le _) row')
  refine Returns.bind (getLineInfo_ok some_ _ _) fun info line => ?_
  refine Returns.bind (moveToLine_moved row' line) fun u moved => ?_
  have caret' : InText u.lines u.characterPos := by
    rw [moved.lines, moved.characterPos]
    exact inText_home line
  refine (moved_end caret').mono fun v ⟨p, inside, moved'⟩ =>
    ⟨p, ?_, (scrolled.moved.trans moved).trans moved'⟩
  rwa [moved.lines, scrolled.moved.lines] at inside

end TextArea
end StyledText
