import UpanLibs.TextArea.Styled.AreaDelete

/-!
Enter in a `TextArea`: the caret's line is split, and what is cut off a line that goes on is
filled up again as DEL at its end would do it.
-/
namespace StyledText

open TextInput Fallible
open WrappedText (Layout Sym Editor Edit)
open WrappedText.Layout (symbols)

theorem columnIn_zero (c : Config) (line : TextLine) (cursorPosX : Int) :
    (columnIn c line cursorPosX).1 = 0 ↔
      ∀ ch ∈ line.characters.head?, cursorPosX < c.leftMargin + ch.chWidth := by
  rw [columnIn]
  cases line.characters with
  | nil => simp [columnBelow]
  | cons ch characters =>
    rw [columnBelow]
    split
    next before => simpa using before
    next behind =>
      have more := columnBelow_ge cursorPosX characters 1 (c.leftMargin + ch.chWidth)
      constructor
      · intro zero
        simp only [Nat.zero_add] at zero
        omega
      · intro all
        have := all ch rfl
        omega

namespace TextArea

variable {c : Config} {s t : TextArea} {above below : List TextLine} {line cur new : TextLine}

/-- What the lines and the caret have to be for `enter` to add only a newline. -/
def EntersNewline (c : Config) (s : TextArea) : Prop :=
  let x := s.characterPos.x
  let y := s.characterPos.y
  (x = 0 ∧ ¬ layout.Ends (s.lines.take y)) ∨
    ∃ line ∈ s.lines[y]?,
      if 0 < x ∧ line.wrapped then
        Refills s.maxLineCharWidth (line.size - x)
          { line with characters := line.characters.drop x } (s.lines.drop (y + 1))
      else ∀ ch ∈ (line.characters.drop x).head?,
        (if x = 0 then s.cursorPos.x else c.leftMargin) < c.leftMargin + ch.chWidth

theorem vscroll_x (row : s.Row) (rows : Int) :
    Returns (vscroll rows s) fun t => t.cursorPos.x = s.cursorPos.x := by
  have shown (t : TextArea) (scrolled : Scrolled s t) (x : t.cursorPos.x = s.cursorPos.x) :
      Returns (updateCursor t >>= fun _ => .ok t) fun t => t.cursorPos.x = s.cursorPos.x := by
    rw [updateCursor_ok (scrolled.row row)]
    exact .ok x
  unfold vscroll
  simp only [updateCursor_ok row]
  refine shown _ ?_ ?_ <;> split
  · exact ⟨_, _, _, rfl⟩
  · exact ⟨_, _, _, rfl⟩
  · rfl
  · rfl

theorem changeScrollHeight_x (row : s.Row) (delta : Int) :
    Returns (changeScrollHeight delta s) fun t => t.cursorPos.x = s.cursorPos.x := by
  unfold changeScrollHeight
  simp only
  generalize (if s.scrollHeight + delta < 0 then 0 else s.scrollHeight + delta) = height
  split
  · unfold scrollToCoverEmptyArea
    simp only
    split
    · exact vscroll_x (s := { s with scrollHeight := height }) row _
    · exact .ok rfl
  · exact .ok rfl

theorem inlinemovehome_x (row : s.Row) : Returns (inlinemovehome c s) fun t =>
    t.cursorPos.x = if s.characterPos.x = 0 then s.cursorPos.x else c.leftMargin := by
  unfold inlinemovehome
  split
  · exact .ok rfl
  · have row' : (⟨0, s.characterPos.y⟩ : UIPosition Nat).y < s.lines.length := row
    rw [updateCursorPosition_ok row row']
    exact .ok rfl

theorem moveToNewLine_moved (row : s.Row) (here : s.lines[s.characterPos.y + 1]? = some new) :
    Returns (moveToNewLine c false s) (Moved s ⟨(columnIn c new
      (if s.characterPos.x = 0 then s.cursorPos.x else c.leftMargin)).1,
        s.characterPos.y + 1⟩) := by
  obtain ⟨t, home, moved, pixel⟩ := (inlinemovehome_moved (c := c) row).and (inlinemovehome_x row)
  have at_ := moved.characterPos
  have row' : t.Row := by
    rw [Row, at_, moved.lines]
    exact row
  have here' : t.lines[t.characterPos.y + 1]? = some new := by
    rw [at_, moved.lines]
    exact here
  obtain ⟨u, down, moved'⟩ := movedown_put (c := c) row' here'
  rw [at_, pixel] at moved'
  unfold moveToNewLine
  simp only [home, down, bind, Except.bind, Bool.false_eq_true, if_false]
  exact .ok (moved.trans moved')

/-- What is cut off a line that goes on is filled up from below, and the caret goes back to
    its start. -/
structure NewLineFilled (s : TextArea) (above : List TextLine) (new : TextLine)
    (below : List TextLine) (t : TextArea) : Prop where
  caret : t.editor.caret = (layout.textAbove above).length
  text : t.editor.text =
      layout.textAbove above ++ symbols new.characters ++ layout.text below ↔
    Refills s.maxLineCharWidth new.size new below

theorem moveToNewLine_end (caret : Caret s above cur (new :: below)) :
    ∃ t, Caret t (above ++ [cur]) new below ∧ Moved s ⟨new.size, s.characterPos.y + 1⟩ t ∧
      moveToNewLine c true s = removech t >>= inlinemovehome c := by
  have row : s.Row := caret.inText.row
  have here : s.lines[s.characterPos.y + 1]? = some new := by
    rw [caret.lines, caret.row]
    simp
  obtain ⟨t, home, moved⟩ := inlinemovehome_moved (c := c) row
  have at_ := moved.characterPos
  have row' : t.Row := by
    rw [Row, at_, moved.lines]
    exact row
  have here' : t.lines[t.characterPos.y + 1]? = some new := by
    rw [at_, moved.lines]
    exact here
  obtain ⟨u, down, moved'⟩ := movedown_put (c := c) row' here'
  rw [at_] at moved'
  have moved₂ := moved.trans moved'
  have here₂ : u.lines[u.characterPos.y]? = some new := by
    rw [moved₂.lines, moved₂.characterPos]
    exact here
  obtain ⟨v, end_, moved''⟩ := inlinemoveend_moved here₂ (by
    rw [moved₂.characterPos]
    exact columnIn_le c new _)
  rw [moved₂.characterPos] at moved''
  have moved₃ := moved₂.trans moved''
  refine ⟨v, ⟨?_, ?_, ?_⟩, moved₃, ?_⟩
  · rw [moved₃.lines, caret.lines]
    simp
  · rw [moved₃.characterPos, List.length_append, ← caret.row]
    rfl
  · rw [moved₃.characterPos]
  · unfold moveToNewLine
    simp only [home, down, end_, bind, Except.bind, if_true]

theorem moveToNewLine_filled (sound : Sound s.maxLineCharWidth s.lines)
    (caret : Caret s above cur (new :: below)) (wrapped : new.wrapped = true) :
    Returns (moveToNewLine c true s) (NewLineFilled s (above ++ [cur]) new below) := by
  have more := layout.ends_wrapped_more (caret.sound sound).tail.ends wrapped
  obtain ⟨next, below, rfl⟩ := List.exists_cons_of_ne_nil more
  obtain ⟨v, caret', moved, eq⟩ := moveToNewLine_end (c := c) caret
  have at_ := moved.characterPos
  have max_ := moved.maxLineCharWidth
  have sound' : Sound v.maxLineCharWidth v.lines := by rwa [max_, moved.lines]
  obtain ⟨w, done, removed⟩ := wrapremove_removed sound' caret' wrapped
  obtain ⟨first, rest, place⟩ := removed.place
  obtain ⟨z, home', last⟩ := inlinemovehome_moved (c := c) place.inText.row
  have keeps := removed.keeps
  rw [at_, max_, remove_beyond (Nat.le_refl _)] at keeps
  have text : z.editor.text = w.editor.text := by rw [editor, editor, last.lines]
  have place' : Caret z (above ++ [cur]) first rest := by
    refine ⟨by rw [last.lines]; exact place.lines, ?_, ?_⟩ <;> rw [last.characterPos]
    · exact place.row
    · exact Nat.zero_le _
  rw [eq, caret'.removech, if_pos wrapped, done]
  refine ⟨z, home', ?_, ?_⟩
  · rw [place'.caret, last.characterPos]
    rfl
  · rw [text]
    exact keeps

theorem enter_ends_above {before : List TextLine} {prev : TextLine}
    (at_ : Below s before prev line below) (wrapped : prev.wrapped = true) :
    enter c s = .ok { s with
      lines := s.lines.set before.length { prev with wrapped := false } } := by
  obtain ⟨prevHere, here⟩ := at_.here
  unfold enter
  rw [at_.position]
  simp only [get_ok_iff.mpr here, get_ok_iff.mpr prevHere, if_pos wrapped, bind, Except.bind]

theorem enter_unwrap {before : List TextLine} {prev : TextLine}
    (at_ : Below s before prev line below) (wrapped : prev.wrapped = true) :
    (∃ t, enter c s = .ok t ∧ s.editor.Does (.insert .newline) t.editor) := by
  have caret := at_.caret
  refine ⟨_, enter_ends_above at_ wrapped, ?_⟩
  have place : Caret { s with
      lines := s.lines.set before.length { prev with wrapped := false } }
      (before ++ [{ prev with wrapped := false }]) line below := by
    refine ⟨?_, caret.row.trans (by simp), caret.column⟩
    simp only [at_.lines, SplitList.set_length, List.append_assoc, List.singleton_append]
  have ended : layout.textAbove (before ++ [{ prev with wrapped := false }]) =
      layout.textAbove (before ++ [prev]) ++ [.newline] := by
    rw [layout.textAbove_append, layout.textAbove_append]
    simp [Layout.textAbove, Layout.ending, layout, wrapped]
  rw [caret.editor, Editor.insert_iff, place.editor, ended]
  simp only [at_.position, List.take_zero, Layout.symbols_nil, List.append_nil]

theorem refills_congr {maxLineCharWidth x : Nat} {top top' : TextLine} {lines : List TextLine}
    (same : top'.characters = top.characters) :
    Refills maxLineCharWidth x top' lines ↔ Refills maxLineCharWidth x top lines := by
  simp only [Refills, wanted, TextLine.size, same]

theorem Split.textAbove {x : Nat} {maxLineCharWidth : Nat} (above : List TextLine)
    (split : Split maxLineCharWidth x line cur new) : layout.textAbove (above ++ [cur]) =
      layout.textAbove above ++ symbols (line.characters.take x) ++ [.newline] := by
  have chars : layout.chars cur = line.characters.take x := split.curCharacters
  have flag : layout.wrapped cur = false := split.curWrapped
  simp [layout.textAbove_append, Layout.textAbove, Layout.ending, chars, flag]

theorem Split.tailText {x : Nat} {maxLineCharWidth : Nat} (below : List TextLine)
    (split : Split maxLineCharWidth x line cur new) :
    layout.tailText new below = layout.tailText line below :=
  layout.tailText_same below split.newWrapped

structure SplitAt (s : TextArea) (above : List TextLine) (line : TextLine)
    (below : List TextLine) (cur new : TextLine) (t : TextArea) : Prop where
  split : Split s.maxLineCharWidth s.characterPos.x line cur new
  caret : Caret t above cur (new :: below)
  position : t.characterPos = s.characterPos
  pixel : t.cursorPos.x = s.cursorPos.x
  max : t.maxLineCharWidth = s.maxLineCharWidth
  sound : Sound t.maxLineCharWidth t.lines

theorem splitLine_at (sound : Sound s.maxLineCharWidth s.lines)
    (caret : Caret s above line below) :
    ∃ cur new t, SplitAt s above line below cur new t ∧
      splitLine c line s = moveToNewLine c (0 < s.characterPos.x && line.wrapped) t := by
  rw [caret.lines] at sound
  obtain ⟨aboveFits, lower⟩ := (Sound.append (by simp)).mp sound
  obtain ⟨cur, new, split, eq⟩ := splitLine_split (c := c) caret.lines caret.row caret.column
    (lower.fits line (by simp))
  have column := Nat.le_of_eq (split.cur_size caret.column).symm
  have put : Caret { s with lines := above ++ cur :: new :: below } above cur (new :: below) :=
    ⟨rfl, caret.row, column⟩
  have row := put.inText.row
  obtain ⟨t, changed, scrolled, pixel⟩ :=
    (changeScrollHeight_ok row new.lineHeight).and (changeScrollHeight_x row new.lineHeight)
  refine ⟨cur, new, t, ?_, by rw [eq, changed, split.newWrapped]; rfl⟩
  have sound' : Sound s.maxLineCharWidth (above ++ cur :: new :: below) :=
    (Sound.append (by simp)).mpr ⟨aboveFits, .cons (List.cons_ne_nil _ _) split.curFits
      (lower.head split.newFits split.newWrapped)⟩
  obtain ⟨_, _, _, rfl⟩ := scrolled
  exact ⟨split, ⟨rfl, caret.row, column⟩, rfl, pixel, rfl, sound'⟩

theorem SplitAt.moves_iff (h : SplitAt s above line below cur new t)
    (caret : Caret s above line below) : Returns (moveToNewLine c false t) fun u =>
      (s.editor.Does (.insert .newline) u.editor ↔
        ∀ ch ∈ (line.characters.drop s.characterPos.x).head?,
          (if s.characterPos.x = 0 then s.cursorPos.x else c.leftMargin) <
            c.leftMargin + ch.chWidth) := by
  have here : t.lines[t.characterPos.y + 1]? = some new := by
    rw [h.caret.lines, h.caret.row]
    simp
  refine (moveToNewLine_moved (c := c) h.caret.inText.row here).mono fun u moved => ?_
  rw [h.position, h.pixel] at moved
  have inside := columnIn_le c new
    (if s.characterPos.x = 0 then s.cursorPos.x else c.leftMargin)
  have at_ := moved.characterPos
  have place : Caret u (above ++ [cur]) new below := by
    refine ⟨by rw [moved.lines, h.caret.lines]; simp, ?_, ?_⟩ <;> rw [at_]
    · rw [caret.row]
      simp
    · exact inside
  have length : (new.characters.take u.characterPos.x).length = u.characterPos.x :=
    place.take_length
  rw [← h.split.newCharacters, ← columnIn_zero, caret.editor, Editor.insert_iff, place.editor,
    h.split.textAbove above, h.split.tailText below, ← h.split.newCharacters]
  have column : u.characterPos.x =
      (columnIn c new (if s.characterPos.x = 0 then s.cursorPos.x else c.leftMargin)).1 := by
    rw [at_]
  rw [← column]
  constructor
  · intro same
    have offset := congrArg (·.caret) same
    simp only [Editor.between, List.length_append, Layout.symbols_length, length] at offset
    omega
  · intro zero
    rw [zero]
    simp

theorem SplitAt.fills_iff (h : SplitAt s above line below cur new t)
    (caret : Caret s above line below) (wrapped : line.wrapped = true) :
    Returns (moveToNewLine c true t) fun u =>
      (s.editor.Does (.insert .newline) u.editor ↔
        Refills s.maxLineCharWidth (line.size - s.characterPos.x)
          { line with characters := line.characters.drop s.characterPos.x } below) := by
  have newWrapped := h.split.newWrapped.trans wrapped
  have more := layout.ends_wrapped_more (h.caret.sound h.sound).tail.ends newWrapped
  refine (moveToNewLine_filled h.sound h.caret newWrapped).mono fun u filled => ?_
  have size : line.size - s.characterPos.x = new.size := by
    rw [TextLine.size, TextLine.size, h.split.newCharacters, List.length_drop]
  rw [size, refills_congr h.split.newCharacters.symm, ← h.max, ← filled.text, caret.editor,
    Editor.insert_iff, Editor.eq_between_iff, filled.caret, h.split.textAbove above,
    layout.tailText_wrapped wrapped more, ← h.split.newCharacters, List.append_assoc]
  simp

theorem splitLine_iff (sound : Sound s.maxLineCharWidth s.lines)
    (caret : Caret s above line below) :
    (∃ t, splitLine c line s = .ok t ∧ s.editor.Does (.insert .newline) t.editor) ↔
      if 0 < s.characterPos.x ∧ line.wrapped then
        Refills s.maxLineCharWidth (line.size - s.characterPos.x)
          { line with characters := line.characters.drop s.characterPos.x } below
      else ∀ ch ∈ (line.characters.drop s.characterPos.x).head?,
        (if s.characterPos.x = 0 then s.cursorPos.x else c.leftMargin) <
          c.leftMargin + ch.chWidth := by
  obtain ⟨cur, new, t, h, eq⟩ := splitLine_at (c := c) sound caret
  by_cases unwrap : 0 < s.characterPos.x ∧ line.wrapped = true
  · have flag : (decide (0 < s.characterPos.x) && line.wrapped) = true := by simpa using unwrap
    obtain ⟨u, done, does⟩ := h.fills_iff (c := c) caret unwrap.2
    rw [if_pos unwrap, eq, flag, exists_ok_iff done]
    exact does
  · have flag : (decide (0 < s.characterPos.x) && line.wrapped) = false := by simpa using unwrap
    obtain ⟨u, done, does⟩ := h.moves_iff (c := c) caret
    rw [if_neg unwrap, eq, flag, exists_ok_iff done]
    exact does

theorem Below.ends_iff {before : List TextLine} {prev : TextLine}
    (at_ : Below s before prev line below) :
    layout.Ends (s.lines.take (before.length + 1)) ↔ prev.wrapped = false := by
  rw [at_.lines, SplitList.take_length_succ, Layout.Ends, List.getLast?_append_of_ne_nil _ (by simp)]
  simp [layout]

theorem enter_split (caret : Caret s above line below)
    (closed : s.characterPos.x = 0 → layout.Ends above) : enter c s = splitLine c line s := by
  have here := caret.here
  have inText := caret.inText
  unfold enter
  rcases position : s.characterPos with ⟨_ | x, _ | y⟩
  · rw [position] at here
    simp only [get_ok_iff.mpr here, bind, Except.bind]
  · obtain ⟨before, prev, line', below', at_, rfl⟩ := below_of_position position inText
    obtain ⟨prevHere, here'⟩ := at_.here
    rw [position] at here
    cases Option.some.inj (here'.symm.trans here)
    have unwrapped := at_.ends_iff
    have take := caret.take
    rw [position] at take
    rw [take] at unwrapped
    have unwrapped := unwrapped.mp (closed (by rw [position]))
    simp only [get_ok_iff.mpr here', get_ok_iff.mpr prevHere, unwrapped, bind, Except.bind,
      Bool.false_eq_true, if_false]
  · rw [position] at here
    simp only [get_ok_iff.mpr here, bind, Except.bind]
  · rw [position] at here
    simp only [get_ok_iff.mpr here, bind, Except.bind]

theorem enter_iff (c : Config) (s : TextArea) (lines : LineStructure s) :
    (∃ t, enter c s = .ok t ∧ s.editor.Does (.insert .newline) t.editor) ↔
      EntersNewline c s := by
  obtain ⟨sound, inText⟩ := lineStructure_iff.mp lines
  obtain ⟨above, line, below, caret⟩ := caret_of_inText inText
  simp only [EntersNewline, caret.here, caret.below, caret.take, Option.mem_def,
    Option.some.injEq, exists_eq_left']
  by_cases closed : s.characterPos.x = 0 → layout.Ends above
  · rw [enter_split caret closed, splitLine_iff sound caret]
    exact (or_iff_right fun open_ => open_.2 (closed open_.1)).symm
  · obtain ⟨home, open_⟩ := Classical.not_imp.mp closed
    refine iff_of_true ?_ (.inl ⟨home, open_⟩)
    rcases position : s.characterPos with ⟨x, _ | y⟩
    · have row := caret.row
      rw [position] at row
      rw [List.length_eq_zero_iff.mp row.symm] at open_
      exact absurd (by simp [Layout.Ends]) open_
    · rw [position] at home
      obtain ⟨before, prev, line', below', at_, rfl⟩ :=
        below_of_position (position.trans (by rw [show x = 0 from home])) inText
      have ends := at_.ends_iff
      have take := caret.take
      rw [position] at take
      rw [take] at ends
      exact enter_unwrap at_ (by simpa using ends.not.mp open_)

theorem enter_iff_wrapped :
    let a : Character := ⟨97, 16, false, false, 0, 0⟩
    let s := { init plainArea with
      lines := [⟨List.replicate 47 a, 384, 16, true⟩, ⟨[a], 16, 16, false⟩]
      characterPos := ⟨1, 0⟩ }
    (∃ t, enter plainArea s = .ok t ∧ s.editor.Does (.insert .newline) t.editor) ↔
      EntersNewline plainArea s :=
  enter_iff plainArea _ (by decide +kernel)

/-- What Enter cuts off has no room for the first character of the next line, which is lost. -/
theorem enter_loses_character :
    ∃ s, Transition.runAll (step plainArea) (init plainArea)
        (List.replicate 47 (.key (.other 97) false) ++ [.key (.other 98) false,
          .key .up false, .key .home false, .key .right false]) = some s ∧
      LineStructure s ∧ ∀ t, enter plainArea s = .ok t →
        ¬ s.editor.Does (.insert .newline) t.editor := by
  have reached : ((Transition.runAll (step plainArea) (init plainArea)
      (List.replicate 47 (.key (.other 97) false) ++ [.key (.other 98) false,
        .key .up false, .key .home false, .key .right false])).any fun s =>
      decide (LineStructure s) && decide (Always (enter plainArea s) fun t =>
        ¬ s.editor.Does (.insert .newline) t.editor)) = true := by
    decide +kernel
  obtain ⟨s, here, all⟩ := (Option.any_eq_true _ _).mp reached
  simp only [Bool.and_eq_true, decide_eq_true_eq] at all
  exact ⟨s, here, all.1, all.2⟩

end TextArea
end StyledText
