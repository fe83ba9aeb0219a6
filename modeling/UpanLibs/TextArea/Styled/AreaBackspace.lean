import UpanLibs.TextArea.Styled.AreaDelete

/-!
Backspace in a `TextArea`: a move to the left and DEL there, which are one step back in the
text everywhere but behind a line that goes on.
-/
namespace StyledText

open TextInput Fallible
open WrappedText (Layout Sym Editor Edit)
open WrappedText.Layout (symbols)

namespace TextArea

variable {c : Config} {s t : TextArea} {above below : List TextLine} {line prev : TextLine}

def scrollYAbove (s : TextArea) (curLine prevLine : TextLine) : Int :=
  let cursorY := s.cursorPos.y - curLine.lineHeight
  if cursorY ≥ (prevLine.lineHeight : Int) - 1 then s.scrollY
  else s.newScrollY (-((prevLine.lineHeight : Int) - 1 - cursorY))

/-- What the lines have to be for `backspace` to take only what is before the caret. -/
def RemovesPrevious (s : TextArea) : Prop :=
  match s.characterPos with
  | ⟨0, 0⟩ => True
  | ⟨0, y + 1⟩ =>
      let below := s.lines.drop (y + 1)
      ∃ prevLine ∈ s.lines[y]?, ∃ curLine ∈ s.lines[y + 1]?,
        if prevLine.wrapped then
          s.editor.caret = 0 ∧ Refills s.maxLineCharWidth prevLine.size prevLine below
        else if 0 < prevLine.size then Refills s.maxLineCharWidth prevLine.size prevLine below
        else layout.Ends (s.lines.take y) ∧
          Shown { s with scrollY := s.scrollYAbove curLine prevLine } y prevLine
  | ⟨x + 1, y⟩ => ∀ line ∈ s.lines[y]?, line.wrapped = true →
      Refills s.maxLineCharWidth x (line.remove x (x + 1)) (s.lines.drop (y + 1))

theorem moveup_above {y : Nat} (above_ : s.characterPos.y = y + 1)
    (here : s.lines[y + 1]? = some line) (prevHere : s.lines[y]? = some prev) :
    Returns (moveup c s) fun t => ∃ x cursorPos, x ≤ prev.size ∧ t = { s with
      characterPos := ⟨x, y⟩, cursorPos := cursorPos, scrollY := s.scrollYAbove line prev } := by
  have row : s.Row := by
    rw [Row, above_]
    exact (List.getElem?_eq_some_iff.mp here).1
  have row' := (List.getElem?_eq_some_iff.mp prevHere).1
  have column := columnIn_le c prev s.cursorPos.x
  unfold moveup
  rw [above_]
  simp only [get_ok_iff.mpr here, get_ok_iff.mpr prevHere, bind, Except.bind]
  unfold scrollYAbove
  split
  next low =>
    rw [updateCursorPosition_ok row row']
    simp only [if_pos low]
    exact .ok ⟨_, _, column, rfl⟩
  next high =>
    rw [updateCursorPosition_ok row row']
    simp only [if_neg high]
    exact .ok ⟨_, _, column, rfl⟩

theorem moveleft_above {y : Nat} (place : s.characterPos = ⟨0, y + 1⟩)
    (here : s.lines[y + 1]? = some line) (prevHere : s.lines[y]? = some prev) :
    Returns (moveleft c s) fun t => ∃ cursorPos, t = { s with
      characterPos := ⟨prev.size, y⟩, cursorPos := cursorPos,
      scrollY := s.scrollYAbove line prev } := by
  obtain ⟨t, up, x, cursorPos, column, rfl⟩ :=
    moveup_above (c := c) (by rw [place]) here prevHere
  unfold moveleft
  rw [place]
  simp only [Nat.add_eq_zero_iff, Nat.one_ne_zero, and_false, if_false, up, bind, Except.bind]
  unfold inlinemoveend
  simp only [get_ok_iff.mpr prevHere, bind, Except.bind]
  split
  next end_ => exact .ok ⟨cursorPos, by rw [end_]⟩
  next =>
    have reach : x + (prev.characters.drop x).length = prev.size := by
      rw [List.length_drop]
      exact Nat.add_sub_cancel' column
    have row' := (List.getElem?_eq_some_iff.mp prevHere).1
    have rowt : Row { s with
      characterPos := ⟨x, y⟩, cursorPos := cursorPos, scrollY := s.scrollYAbove line prev } := row'
    rw [updateCursorPosition_ok rowt row', reach]
    exact .ok ⟨_, rfl⟩

theorem deletes_iff_does (caret : Caret s above line below)
    (more : s.characterPos.x = line.size → layout.tailText line below ≠ []) :
    Deletes s t ↔ s.editor.Does .delete t.editor := by
  refine ⟨fun deletes => deletes.text, fun does => ⟨does, fun end_ => ?_⟩⟩
  obtain ⟨end_, none_⟩ := caret.end_iff.mp end_
  exact absurd none_ (more end_)

theorem backspace_inside (sound : Sound s.maxLineCharWidth s.lines)
    (caret : Caret s above line below) {x : Nat} (place : s.characterPos.x = x + 1) :
    (∃ t, backspace c s = .ok t ∧ s.editor.Does .backspace t.editor) ↔
      (line.wrapped = true → Refills s.maxLineCharWidth x (line.remove x (x + 1)) below) := by
  obtain ⟨s', left, p, -, moved, before, -⟩ := moveleft_moved (c := c) caret.inText
  obtain rfl := before x place
  have column := caret.column
  have inside : x < line.size := by omega
  have here : Caret s' above line below := by
    refine ⟨by rw [moved.lines]; exact caret.lines, ?_, ?_⟩ <;> rw [moved.characterPos]
    · exact caret.row
    · exact Nat.le_of_lt inside
  have max_ : s'.maxLineCharWidth = s.maxLineCharWidth := moved.maxLineCharWidth
  have at_ : s'.characterPos.x = x := by rw [moved.characterPos]
  have sound' : Sound s'.maxLineCharWidth s'.lines := by rwa [max_, moved.lines]
  have text : s'.editor.text = s.editor.text := by rw [editor, editor, moved.lines]
  have step : s.editor.caret = s'.editor.caret + 1 := by
    rw [caret.caret, here.caret, at_, place, Nat.add_assoc]
  have inside' : s'.characterPos.x < line.size := at_ ▸ inside
  have same (t : TextArea) : s.editor.Does .backspace t.editor ↔ Deletes s' t := by
    rw [Editor.backspace_left text step, deletes_iff_does here fun end_ => by omega]
  have next : backspace c s = removech s' := by
    unfold backspace
    rw [if_neg (by simp [place]), left]
    rfl
  simp only [next, same]
  by_cases wrapped : line.wrapped = true
  · rw [delete_wrapped sound' here wrapped inside', at_, max_]
    exact ⟨fun refills _ => refills, fun refills => refills wrapped⟩
  · exact iff_of_true (delete_inside here (by simpa using wrapped) inside')
      fun h => absurd h wrapped

variable {before : List TextLine}

/-- The state in which `backspace` removes a character, with the caret at the end of the
    line above. -/
structure AtEnd (s : TextArea) (before : List TextLine) (prev line : TextLine)
    (below : List TextLine) (s' : TextArea) : Prop where
  caret : Caret s' before prev (line :: below)
  lines : s'.lines = s.lines
  column : s'.characterPos.x = prev.size
  max : s'.maxLineCharWidth = s.maxLineCharWidth
  shown : s'.Shown before.length prev ↔
    Shown { s with scrollY := s.scrollYAbove line prev } before.length prev

theorem backspace_above (at_ : Below s before prev line below) :
    ∃ s', backspace c s = removech s' ∧ AtEnd s before prev line below s' := by
  obtain ⟨prevHere, here⟩ := at_.here
  obtain ⟨s', left, cursorPos, moved⟩ := moveleft_above (c := c) at_.position here prevHere
  refine ⟨s', ?_, ?_⟩
  · unfold backspace
    rw [if_neg (by simp [at_.position]), left]
    rfl
  · subst moved
    exact ⟨⟨at_.lines, rfl, Nat.le_refl _⟩, rfl, rfl, rfl, Iff.rfl⟩

theorem AtEnd.text {s' : TextArea} (end_ : AtEnd s before prev line below s') :
    s'.editor.text = s.editor.text := by
  rw [editor, editor, end_.lines]

theorem AtEnd.sound {s' : TextArea} (end_ : AtEnd s before prev line below s')
    (sound : Sound s.maxLineCharWidth s.lines) : Sound s'.maxLineCharWidth s'.lines := by
  rwa [end_.max, end_.lines]

theorem backspace_join (sound : Sound s.maxLineCharWidth s.lines)
    (at_ : Below s before prev line below) (unwrapped : prev.wrapped = false) :
    (∃ t, backspace c s = .ok t ∧ s.editor.Does .backspace t.editor) ↔
      if 0 < prev.size then Refills s.maxLineCharWidth prev.size prev (line :: below)
      else layout.Ends before ∧
        Shown { s with scrollY := s.scrollYAbove line prev } before.length prev := by
  obtain ⟨s', next, end_⟩ := backspace_above (c := c) at_
  have step : s.editor.caret = s'.editor.caret + 1 := by
    rw [at_.offset, end_.caret.caret, end_.column, unwrapped]
    rfl
  have same (t : TextArea) : s.editor.Does .backspace t.editor ↔ Deletes s' t := by
    rw [Editor.backspace_left end_.text step, deletes_iff_does end_.caret]
    intro _
    rw [tailText_unwrapped unwrapped (List.cons_ne_nil _ _)]
    exact List.cons_ne_nil _ _
  simp only [next, same]
  by_cases some_ : 0 < prev.size
  · rw [if_pos some_, delete_end (end_.sound sound) end_.caret unwrapped end_.column
      (end_.column ▸ some_), end_.max, end_.column]
    exact and_iff_right (List.cons_ne_nil _ _)
  · have row := end_.caret.row
    rw [if_neg some_, delete_empty end_.caret unwrapped (by omega), row, end_.shown]
    simp

/-- Backspace at the start of a line that the one above goes on in is DEL, not a step back:
    right only where there is nothing before the caret. -/
theorem backspace_wrapped (sound : Sound s.maxLineCharWidth s.lines)
    (at_ : Below s before prev line below) (wrapped : prev.wrapped = true) :
    (∃ t, backspace c s = .ok t ∧ s.editor.Does .backspace t.editor) ↔
      s.editor.caret = 0 ∧ Refills s.maxLineCharWidth prev.size prev (line :: below) := by
  obtain ⟨s', next, end_⟩ := backspace_above (c := c) at_
  obtain ⟨t, done, removed⟩ := wrapremove_removed (end_.sound sound) end_.caret wrapped
  have same : t.editor.caret = s.editor.caret := by
    rw [at_.offset, if_pos wrapped, removed.caret, end_.column]
    rfl
  have keeps := removed.keeps
  rw [end_.column, end_.max, remove_beyond (Nat.le_refl _)] at keeps
  have text : s.editor.text =
      layout.textAbove before ++ symbols prev.characters ++ layout.text (line :: below) := by
    rw [editor, at_.lines, layout.text_append (List.cons_ne_nil _ _),
      text_wrapped (line :: below) wrapped, List.append_assoc]
  rw [← text] at keeps
  rw [next, end_.caret.removech, if_pos wrapped, exists_ok_iff done, ← keeps]
  exact Editor.backspace_stays_iff same

theorem backspace_iff (c : Config) (s : TextArea) (lines : LineStructure s) :
    (∃ t, backspace c s = .ok t ∧ s.editor.Does .backspace t.editor) ↔ RemovesPrevious s := by
  obtain ⟨sound, inText⟩ := lineStructure_iff.mp lines
  obtain ⟨above, line, below, caret⟩ := caret_of_inText inText
  unfold RemovesPrevious
  rcases position : s.characterPos with ⟨x, y⟩
  cases x with
  | zero =>
    cases y with
    | zero =>
      have top : above = [] := List.length_eq_zero_iff.mp (by rw [← caret.row, position])
      have start : s.editor.caret = 0 := by
        rw [caret.caret, position, top]
        rfl
      refine iff_of_true ⟨s, ?_, (Editor.backspace_stays_iff rfl).mpr ⟨start, rfl⟩⟩ trivial
      unfold backspace
      rw [if_pos (by simp [position])]
    | succ y =>
      obtain ⟨before, prev, line, below, at_, rfl⟩ := below_of_position position inText
      obtain ⟨prevHere, here⟩ := at_.here
      obtain ⟨take, drop⟩ := at_.parts
      simp only [prevHere, here, take, drop, Option.mem_def, Option.some.injEq, exists_eq_left']
      by_cases wrapped : prev.wrapped = true
      · rw [if_pos wrapped]
        exact backspace_wrapped sound at_ wrapped
      · rw [if_neg wrapped]
        exact backspace_join sound at_ (by simpa using wrapped)
  | succ x =>
    have here := caret.here
    have below_ := caret.below
    rw [position] at here below_
    simp only [here, below_, Option.mem_def, Option.some.injEq, forall_eq']
    exact backspace_inside sound caret (by rw [position])

theorem backspace_iff_wrapped :
    let a : Character := ⟨97, 16, false, false, 0, 0⟩
    let s := { init plainArea with
      lines := [⟨List.replicate 47 a, 384, 16, true⟩, ⟨[a], 16, 16, false⟩]
      characterPos := ⟨0, 1⟩ }
    (∃ t, backspace plainArea s = .ok t ∧ s.editor.Does .backspace t.editor) ↔
      RemovesPrevious s :=
  backspace_iff plainArea _ (by decide +kernel)

/-- Backspace at the start of a line that the one above goes on in takes the character
    behind the caret. -/
theorem backspace_takes_following_character :
    ∃ s, Transition.runAll (step plainArea) (init plainArea)
        (List.replicate 47 (.key (.other 97) false) ++
          [.key (.other 98) false, .key .home false]) = some s ∧
      LineStructure s ∧ s.characterPos = ⟨0, 1⟩ ∧
      ∀ t, backspace plainArea s = .ok t → ¬ s.editor.Does .backspace t.editor := by
  have reached : ((Transition.runAll (step plainArea) (init plainArea)
      (List.replicate 47 (.key (.other 97) false) ++
        [.key (.other 98) false, .key .home false])).any fun s =>
      decide (LineStructure s) && decide (s.characterPos = ⟨0, 1⟩) &&
        decide (Always (backspace plainArea s) fun t =>
          ¬ s.editor.Does .backspace t.editor)) = true := by
    decide +kernel
  obtain ⟨s, here, all⟩ := (Option.any_eq_true _ _).mp reached
  simp only [Bool.and_eq_true, decide_eq_true_eq] at all
  exact ⟨s, here, all.1.1, all.1.2, all.2⟩

end TextArea
end StyledText
