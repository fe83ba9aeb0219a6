import UpanLibs.TextArea.Styled.AreaPaste

/-!
Deleting a selection of a `TextArea`. The lines in the middle go first, which leaves as much
selected text behind the caret as is counted then; that is deleted like with so many DELs.
-/
namespace StyledText

open TextInput Fallible
open WrappedText (Layout Sym Editor Edit)
open WrappedText.Layout (symbols)

namespace TextArea

variable {c : Config} {s t : TextArea}

/-- Each of so many DELs finds the lines such that it takes only what is behind the caret. -/
def RemovesEach : Nat → TextArea → Prop
  | 0, _ => True
  | charCount + 1, s => RemovesNext s ∧ Always (removech s) (RemovesEach charCount)

theorem RemovesNext.not_marksLast (removes : RemovesNext s) (orderly : Orderly s) :
    ¬ s.MarksLast := by
  rintro ⟨last, some_, end_⟩
  obtain ⟨line, here, removes⟩ := removes
  have none_ : s.lines.drop (s.characterPos.y + 1) = [] := by
    rw [last, List.drop_length]
  have unwrapped : line.wrapped = false := by
    refine orderly.sound.ends line ?_
    rw [List.getLast?_eq_getElem?, ← last]
    exact here
  rw [Option.mem_def.mp here] at end_
  have size : line.size = s.characterPos.x := Option.some.inj end_
  simp only [none_, unwrapped, size] at removes
  simp [some_] at removes

theorem removech_deletes (orderly : Orderly s) (removes : RemovesNext s) :
    Returns (removech s) fun t => Orderly t ∧ Edited s t ∧ s.editor.Does .delete t.editor := by
  obtain ⟨above, line, below, caret⟩ := caret_of_inText orderly.caret
  obtain ⟨t, done, deletes⟩ := (deletes_at_iff caret orderly.sound).mpr removes
  obtain ⟨t', done', orderly', edited⟩ := removech_tidy orderly (removes.not_marksLast orderly)
  cases Except.ok.inj (done.symm.trans done')
  exact ⟨t, done, orderly', edited, deletes.text⟩

theorem removeAll_deletes {charCount : Nat} {before after : List (Sym Character)}
    (orderly : Orderly s) (each : RemovesEach charCount s)
    (editor : s.editor = .between before after) :
    Returns (removeAll charCount s) fun t => Orderly t ∧ Edited s t ∧
      t.editor = .between before (after.drop charCount) := by
  induction charCount generalizing s after with
  | zero => exact .ok ⟨orderly, .refl s, editor⟩
  | succ charCount ih =>
    obtain ⟨removes, each⟩ := each
    refine Returns.bind ((removech_deletes orderly removes).always each) ?_
    rintro t ⟨⟨orderly', edited, does⟩, each'⟩
    rw [editor, Editor.delete_iff] at does
    refine (ih orderly' each' does).mono fun u h => ?_
    obtain ⟨orderly₂, edited', editor'⟩ := h
    rw [List.drop_tail] at editor'
    exact ⟨orderly₂, edited.trans edited', editor'⟩

structure Joined (s : TextArea) (above : List TextLine) (line : TextLine)
    (rest : List TextLine) (t : TextArea) : Prop where
  orderly : Orderly t
  edited : Edited s t
  lines : ∃ line', t.lines = above ++ line' :: rest ∧ line'.characters = line.characters
  position : t.characterPos = s.characterPos

theorem removeLines_joined {above mid rest : List TextLine} {line : TextLine}
    (orderly : Orderly s) (lines : s.lines = above ++ line :: (mid ++ rest))
    (row : s.characterPos.y = above.length) :
    Returns (removeLines (s.characterPos.y + 1) mid.length s) (Joined s above line rest) := by
  induction mid generalizing s line with
  | nil => exact .ok ⟨orderly, .refl s, ⟨line, lines, rfl⟩, rfl⟩
  | cons next mid ih =>
    have here : s.lines[s.characterPos.y + 1]? = some next := by
      rw [lines, row]
      simp
    obtain ⟨t, done, scrolled⟩ := deleteLine_below here (Nat.lt_succ_self _)
    obtain ⟨t', done', orderly', edited, at_, -⟩ := deleteLine_ok orderly
      (List.getElem?_eq_some_iff.mp here).1 (.inl (Nat.lt_succ_self _))
    cases Except.ok.inj (done.symm.trans done')
    have erased := SplitList.eraseIdx_length (above ++ [rejoined next.wrapped line]) (mid ++ rest)
      next
    have lines' : t.lines = above ++ rejoined next.wrapped line :: (mid ++ rest) := by
      rw [scrolled.moved.lines]
      simp only [lines, row, rejoin_succ, SplitList.modify_length]
      simpa using erased
    have same : (rejoined next.wrapped line).characters = line.characters := by
      unfold rejoined
      split <;> rfl
    rw [List.length_cons, removeLines, done]
    obtain ⟨u, further, joined⟩ := ih orderly' lines' (by rw [at_, row])
    obtain ⟨line', lines₂, characters⟩ := joined.lines
    rw [at_] at further
    exact ⟨u, further, joined.orderly, edited.trans joined.edited,
      ⟨line', lines₂, characters.trans same⟩, joined.position.trans at_⟩

def Starts (s : TextArea) (r : TextArea × Nat) : Prop :=
  Orderly r.1 ∧ r.1.selectedArea.present = false ∧
    ∃ after, r.1.editor = .between
        (layout.before s.lines s.selectedArea.p1.x s.selectedArea.p1.y) after ∧
      after.drop r.2 = (layout.text s.lines).drop
        (layout.offset s.lines s.selectedArea.p2.x s.selectedArea.p2.y)

theorem starts_inside {above below : List TextLine} {line : TextLine} (orderly : Orderly t)
    (cleared : t.selectedArea.present = false) (caret : Caret t above line below)
    (lines : t.lines = s.lines) (position : t.characterPos = s.selectedArea.p1)
    (same : s.selectedArea.p1.y = s.selectedArea.p2.y)
    (ordered : s.selectedArea.p1.x ≤ s.selectedArea.p2.x)
    (inside : s.selectedArea.p2.x ≤ line.size) :
    Starts s (t, s.selectedArea.p2.x - s.selectedArea.p1.x) := by
  have row := caret.row
  have start := layout.before_split above below line s.selectedArea.p1.x
  have finish := layout.text_drop above below line s.selectedArea.p2.x
  rw [← caret.lines, ← row, position, lines] at start
  rw [← caret.lines, ← row, position, same, lines] at finish
  refine ⟨orderly, cleared, _, by rw [caret.editor, start, position]; rfl, ?_⟩
  have size : line.characters.length = line.size := rfl
  have length : s.selectedArea.p2.x - s.selectedArea.p1.x ≤
      (symbols (line.characters.drop s.selectedArea.p1.x)).length := by
    rw [Layout.symbols_length, List.length_drop]
    omega
  have rest : s.selectedArea.p1.x + (s.selectedArea.p2.x - s.selectedArea.p1.x) =
      s.selectedArea.p2.x := by omega
  rw [finish, List.drop_append_of_le_length length]
  unfold symbols
  rw [← List.map_drop, List.drop_drop, rest]
  rfl

theorem starts_below {above mid rest : List TextLine} {line line' last : TextLine}
    (orderly : Orderly t) (cleared : t.selectedArea.present = false)
    (lines : s.lines = above ++ line :: (mid ++ last :: rest))
    (caret : Caret t above line' (last :: rest)) (characters : line'.characters = line.characters)
    (position : t.characterPos = s.selectedArea.p1)
    (lower : s.selectedArea.p2.y = above.length + 1 + mid.length)
    (inside : s.selectedArea.p2.x ≤ last.size) :
    Starts s (t, line'.size - s.selectedArea.p1.x + (if line'.wrapped then 0 else 1) +
      s.selectedArea.p2.x) := by
  have row := caret.row
  have start := layout.before_split above (mid ++ last :: rest) line s.selectedArea.p1.x
  have finish := layout.text_drop (above ++ line :: mid) rest last
    s.selectedArea.p2.x
  have whole : s.lines = (above ++ line :: mid) ++ last :: rest := by simp [lines]
  have place : (above ++ line :: mid).length = s.selectedArea.p2.y := by
    rw [lower, List.length_append, List.length_cons]
    omega
  rw [← whole, place] at finish
  rw [← lines, ← row, position] at start
  refine ⟨orderly, cleared, _, by rw [caret.editor, start, position, characters]; rfl, ?_⟩
  have size : last.characters.length = last.size := rfl
  have flag : (layout.ending line').length = if line'.wrapped then 0 else 1 := by
    have same : layout.wrapped line' = line'.wrapped := rfl
    rw [Layout.ending, same]
    split <;> rfl
  have first : (symbols (line.characters.drop s.selectedArea.p1.x)).length =
      line'.size - s.selectedArea.p1.x := by
    rw [Layout.symbols_length, List.length_drop, ← characters]
    rfl
  have tail : layout.tailText line' (last :: rest) =
      layout.ending line' ++ (symbols last.characters ++ layout.tailText last rest) := by
    rw [Layout.tailText, if_neg (List.cons_ne_nil _ _), layout.text_line]
    rfl
  rw [finish, tail, ← flag, ← first, Nat.add_assoc, ← List.drop_drop, List.drop_left,
    ← List.drop_drop, List.drop_left, List.drop_append_of_le_length (by simpa [size] using inside)]
  unfold symbols
  rw [List.map_drop]
  rfl

theorem startSelection_starts (orderly : Orderly s) (selection : Selection s) :
    Returns (startSelection c s) (Starts s) := by
  obtain ⟨line, here, column⟩ := selection.first
  obtain ⟨above, below, lines, row⟩ := SplitList.split_at here
  obtain ⟨baseX, base⟩ : ∃ baseX,
      getLineBaseX c s.lines s.selectedArea.p1.x s.selectedArea.p1.y = .ok baseX := by
    simp [getLineBaseX, get_ok_iff.mpr here]
  obtain ⟨t, put, moved⟩ := moved_put orderly.row s.selectedArea.p1 selection.first.row
    ⟨baseX, getLineBaseY s.lines s.selectedArea.p1.y s.scrollY⟩
  have orderly' := orderly.moved selection.first moved
  obtain ⟨u, scroll, scrolled⟩ := scrollToY_ok orderly'.row t.cursorPos.y
  have moved' : Moved s s.selectedArea.p1 u := moved.trans (moved.characterPos ▸ scrolled.moved)
  have at_ : u.characterPos = s.selectedArea.p1 := moved'.characterPos
  have lines' : u.lines = s.lines := moved'.lines
  have orderly₂ : Orderly { u with selectedArea.present := false } := by
    have kept := orderly.moved selection.first moved'
    exact ⟨kept.sound, kept.caret⟩
  have caret : Caret { u with selectedArea.present := false } above line below :=
    ⟨lines'.trans lines, by simp only [at_, row], by simpa only [at_] using column⟩
  unfold startSelection
  simp only [base, put, scroll, bind, Except.bind]
  rcases selection.rows with ⟨same, ordered⟩ | lower
  · rw [if_pos same]
    obtain ⟨line₂, here₂, inside⟩ := selection.last
    rw [← same, here] at here₂
    cases here₂
    exact .ok (starts_inside orderly₂ rfl caret lines' at_ same ordered inside)
  · rw [if_neg (Nat.ne_of_lt lower)]
    obtain ⟨last, here₂, inside⟩ := selection.last
    have place : below[s.selectedArea.p2.y - (s.selectedArea.p1.y + 1)]? = some last := by
      rw [← here₂, lines, List.getElem?_append_right (by omega), row,
        show s.selectedArea.p2.y - s.selectedArea.p1.y =
          s.selectedArea.p2.y - (s.selectedArea.p1.y + 1) + 1 by omega]
      rfl
    obtain ⟨mid, rest, rfl, count⟩ := SplitList.split_at place
    obtain ⟨v, removed, joined⟩ := removeLines_joined orderly₂ caret.lines caret.row
    obtain ⟨line', lines₂, characters⟩ := joined.lines
    have at₂ : v.characterPos = s.selectedArea.p1 := joined.position.trans at_
    have row₂ : v.characterPos.y = above.length := by rw [at₂, row]
    have size : line'.size = line.size := by rw [TextLine.size, characters]; rfl
    have column' : s.selectedArea.p1.x ≤ line'.size := size ▸ column
    have caret' : Caret v above line' (last :: rest) :=
      ⟨lines₂, row₂, by rw [at₂]; exact column'⟩
    have cleared : v.selectedArea.present = false := by
      obtain ⟨_, _, _, _, _, rfl⟩ := joined.edited
      rfl
    have whole := starts_below joined.orderly cleared lines caret' characters at₂
      (show s.selectedArea.p2.y = above.length + 1 + mid.length by omega) inside
    have here' := caret'.here
    rw [at₂] at here'
    have removed' : removeLines (s.selectedArea.p1.y + 1)
        (s.selectedArea.p2.y - (s.selectedArea.p1.y + 1))
        { u with selectedArea.present := false } = .ok v := by
      rw [← count, ← at_]
      exact removed
    simp only [removed', get_ok_iff.mpr here']
    refine .ok ?_
    have number : (((line'.size : Int) - s.selectedArea.p1.x) + (if line'.wrapped then 0 else 1) +
        s.selectedArea.p2.x).toNat = line'.size - s.selectedArea.p1.x +
          (if line'.wrapped then 0 else 1) + s.selectedArea.p2.x := by
      split <;> omega
    rw [number]
    exact whole

/-- The text without the selected part, with the caret in its place, and no selection. -/
structure Cuts (s t : TextArea) : Prop where
  text : layout.text t.lines =
    layout.before s.lines s.selectedArea.p1.x s.selectedArea.p1.y ++
      (layout.text s.lines).drop (layout.offset s.lines s.selectedArea.p2.x s.selectedArea.p2.y)
  caret : t.editor.caret = layout.offset s.lines s.selectedArea.p1.x s.selectedArea.p1.y
  cleared : t.selectedArea.present = false

/-- The selection is deleted where each of the DELs that the code makes of it finds the lines
    such that it takes only what is behind the caret. -/
theorem editSelection_cuts (c : Config) (s : TextArea) (lines : LineStructure s)
    (selection : Selection s) (each : Always (startSelection c s) fun r => RemovesEach r.2 r.1) :
    ∃ t, editSelection c s = .ok t ∧ Cuts s t := by
  obtain ⟨sound, caret⟩ := lineStructure_iff.mp lines
  obtain ⟨⟨t, charCount⟩, started, orderly, cleared, after, editor, rest⟩ :=
    startSelection_starts (c := c) ⟨sound, caret⟩ selection
  obtain ⟨u, removed, -, edited, editor'⟩ := removeAll_deletes orderly (each _ started) editor
  refine ⟨u, ?_, ?_⟩
  · simp only [editSelection, selection.present, if_true, started, removed, bind, Except.bind]
  · rw [rest, Editor.eq_between_iff] at editor'
    obtain ⟨_, _, _, _, _, rfl⟩ := edited
    exact ⟨editor'.1, editor'.2, cleared⟩

instance (lines : List TextLine) : Decidable (layout.Ends lines) :=
  inferInstanceAs (Decidable (∀ last ∈ lines.getLast?, last.wrapped = false))

instance (s : TextArea) : Decidable (RemovesNext s) :=
  inferInstanceAs (Decidable (∃ line ∈ s.lines[s.characterPos.y]?,
    if line.wrapped then
      if s.characterPos.x < line.size then Refills s.maxLineCharWidth s.characterPos.x
        (line.remove s.characterPos.x (s.characterPos.x + 1)) (s.lines.drop (s.characterPos.y + 1))
      else TakesOne s.maxLineCharWidth s.characterPos.x line (s.lines.drop (s.characterPos.y + 1))
    else if s.characterPos.x < line.size then True
    else if 0 < s.characterPos.x then s.lines.drop (s.characterPos.y + 1) ≠ [] ∧
      Refills s.maxLineCharWidth s.characterPos.x line (s.lines.drop (s.characterPos.y + 1))
    else layout.Ends (s.lines.take s.characterPos.y) ∧
      (s.lines.drop (s.characterPos.y + 1) = [] ∨ s.Shown s.characterPos.y line)))

instance removesEachDecidable : ∀ charCount s, Decidable (RemovesEach charCount s)
  | 0, _ => .isTrue trivial
  | charCount + 1, s =>
      have := removesEachDecidable charCount
      inferInstanceAs (Decidable (RemovesNext s ∧ Always (removech s) (RemovesEach charCount)))

theorem editSelection_cuts_letters :
    let a : Character := ⟨97, 16, false, false, 0, 0⟩
    let s := { init plainArea with
      lines := [⟨[a, a], 24, 16, false⟩, ⟨[a], 16, 16, false⟩, ⟨[a, a], 24, 16, false⟩]
      selectedArea := ⟨⟨1, 0⟩, ⟨1, 0⟩, ⟨1, 2⟩, true⟩ }
    ∃ t, editSelection plainArea s = .ok t ∧ Cuts s t :=
  editSelection_cuts plainArea _ (by decide +kernel) ⟨rfl, by decide, by decide, by decide⟩
    (by decide +kernel)

/-- Deleting the last character of a line that goes on with a wide one, as a selection, takes
    that one too. -/
theorem selection_takes_wide_character :
    ∃ s, Transition.runAll (step plainArea) (init plainArea)
        (List.replicate 46 (.key (.other 97) false) ++ [.font 40, .key (.other 98) false,
          .key .up false, .key .end_ false, .key .left false, .key .right true]) = some s ∧
      LineStructure s ∧ Selection s ∧ ∀ t, editSelection plainArea s = .ok t → ¬ Cuts s t := by
  have reached : ((Transition.runAll (step plainArea) (init plainArea)
      (List.replicate 46 (.key (.other 97) false) ++ [.font 40, .key (.other 98) false,
        .key .up false, .key .end_ false, .key .left false, .key .right true])).any fun s =>
      decide (LineStructure s ∧ s.selectedArea.present = true ∧
        InText s.lines s.selectedArea.p1 ∧ InText s.lines s.selectedArea.p2 ∧
        s.selectedArea.p1.le s.selectedArea.p2 = true) &&
      decide (Always (editSelection plainArea s) fun t => layout.text t.lines ≠
        layout.before s.lines s.selectedArea.p1.x s.selectedArea.p1.y ++ (layout.text s.lines).drop
          (layout.offset s.lines s.selectedArea.p2.x s.selectedArea.p2.y))) = true := by
    decide +kernel
  obtain ⟨s, here, all⟩ := (Option.any_eq_true _ _).mp reached
  obtain ⟨before, after⟩ := Bool.and_eq_true_iff.mp all
  obtain ⟨lines, present, first, last, ordered⟩ := of_decide_eq_true before
  exact ⟨s, here, lines, ⟨present, first, last, ordered⟩,
    fun t done cuts => of_decide_eq_true after t done cuts.text⟩

end TextArea
end StyledText
