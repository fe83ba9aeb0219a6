import UpanLibs.TextArea.Styled.AreaMoves

/-!
The edits of a `TextArea` whose lines are sound and whose caret is inside the text: each
comes to an end and leaves such an area, unless `removech` marks the last line wrapped.
-/
namespace StyledText

open TextInput Fallible

variable {maxLineCharWidth : Nat}

def rejoined (wrapped : Bool) (prevLine : TextLine) : TextLine :=
  if prevLine.wrapped then { prevLine with wrapped := wrapped } else prevLine

theorem rejoined_size (wrapped : Bool) (prevLine : TextLine) :
    (rejoined wrapped prevLine).size = prevLine.size := by
  unfold rejoined
  split <;> rfl

theorem rejoined_fits {prevLine : TextLine} (fits : Fits maxLineCharWidth prevLine)
    (wrapped : Bool) : Fits maxLineCharWidth (rejoined wrapped prevLine) := by
  unfold rejoined
  split
  · exact fits.of_same rfl rfl
  · exact fits

theorem rejoin_succ (wrapped : Bool) (above : Nat) (lines : List TextLine) :
    rejoin wrapped (above + 1) lines = lines.modify above (rejoined wrapped) := rfl

theorem rejoin_length (wrapped : Bool) (y : Nat) (lines : List TextLine) :
    (rejoin wrapped y lines).length = lines.length := by
  cases y with
  | zero => rfl
  | succ above => rw [rejoin_succ, List.length_modify]

theorem rejoin_inText (wrapped : Bool) (y : Nat) {lines : List TextLine} {p : UIPosition Nat}
    (caret : InText lines p) : InText (rejoin wrapped y lines) p := by
  obtain ⟨line, here, inside⟩ := caret
  cases y with
  | zero => exact ⟨line, here, inside⟩
  | succ above =>
    refine ⟨if above = p.y then rejoined wrapped line else line, ?_, ?_⟩
    · rw [rejoin_succ, List.getElem?_modify, here]
      split <;> rfl
    · split
      · rwa [rejoined_size]
      · exact inside

theorem rejoin_sound {y : Nat} {lines : List TextLine} {line : TextLine}
    (here : lines[y]? = some line) (sound : Sound maxLineCharWidth lines) :
    Sound maxLineCharWidth (rejoin line.wrapped y lines) := by
  cases y with
  | zero => exact sound
  | succ above =>
    obtain ⟨before, prev, below, rfl, rfl⟩ := SplitList.split_two here
    obtain ⟨fits, sound⟩ := (Sound.append (by simp)).mp sound
    rw [rejoin_succ, SplitList.modify_length]
    exact (Sound.append (by simp)).mpr
      ⟨fits, .cons (by simp) (rejoined_fits (sound.fits prev (by simp)) _) sound.tail⟩

theorem rejoin_erase_sound {y : Nat} {lines : List TextLine} {line : TextLine}
    (here : lines[y]? = some line) (more : 1 < lines.length)
    (sound : Sound maxLineCharWidth lines) :
    Sound maxLineCharWidth ((rejoin line.wrapped y lines).eraseIdx y) := by
  cases y with
  | zero =>
    obtain ⟨first, below, rfl⟩ := List.exists_cons_of_ne_nil (List.ne_nil_of_length_pos
      (Nat.lt_of_succ_lt more))
    exact sound.tail
  | succ above =>
    obtain ⟨before, prev, below, rfl, rfl⟩ := SplitList.split_two here
    obtain ⟨fits, sound⟩ := (Sound.append (by simp)).mp sound
    have prevFits := rejoined_fits (sound.fits prev (by simp)) line.wrapped
    have erased : ((before ++ prev :: line :: below).modify before.length
        (rejoined line.wrapped)).eraseIdx (before.length + 1) =
          before ++ rejoined line.wrapped prev :: below := by
      have erase := SplitList.eraseIdx_length (before ++ [rejoined line.wrapped prev]) below line
      rw [SplitList.modify_length]
      simpa using erase
    rw [rejoin_succ, erased]
    refine (Sound.append (by simp)).mpr ⟨fits, ?_⟩
    by_cases last : below = []
    · subst last
      have unwrapped : line.wrapped = false := sound.ends line rfl
      refine sound.tail.head prevFits ?_
      unfold rejoined
      split
      · rfl
      next prev_ => rw [unwrapped]; simpa using prev_
    · exact .cons last prevFits sound.tail.tail

theorem rejoin_erase_inText {y : Nat} {lines : List TextLine} {wrapped : Bool}
    {p : UIPosition Nat} (caret : InText lines p)
    (place : p.y < y ∨ p.x = 0 ∧ p.y = y ∧ y + 1 < lines.length) :
    InText ((rejoin wrapped y lines).eraseIdx y) p := by
  rcases place with above | ⟨home, rfl, more⟩
  · obtain ⟨line, here, inside⟩ := rejoin_inText wrapped y caret
    exact ⟨line, by rwa [List.getElem?_eraseIdx_of_lt above], inside⟩
  · have row : p.y < ((rejoin wrapped p.y lines).eraseIdx p.y).length := by
      rw [List.length_eraseIdx, rejoin_length, if_pos (by omega)]
      omega
    exact ⟨_, List.getElem?_eq_getElem row, by rw [home]; exact Nat.zero_le _⟩

namespace TextArea

variable {c : Config} {s t : TextArea}

structure Valid (c : Config) (s : TextArea) : Prop where
  sound : Sound s.maxLineCharWidth s.lines
  caret : InText s.lines s.characterPos
  settled : s.bufferWidth = s.width ∧ c.minWidth ≤ s.width ∧
    s.maxLineCharWidth = c.lineCharWidth s.width
  ordered : s.selectedArea.p1.y ≤ s.selectedArea.p2.y

theorem lineCharWidth_room (c : Config) {width : Int} (wide : c.minWidth ≤ width) :
    MIN_CURSOR_WIDTH_BUFFER ≤ c.lineCharWidth width := by
  have room := c.room
  unfold Config.minWidth at wide
  unfold Config.lineCharWidth
  omega

theorem Valid.room (valid : Valid c s) : MIN_CURSOR_WIDTH_BUFFER ≤ s.maxLineCharWidth := by
  obtain ⟨_, wide, max_⟩ := valid.settled
  rw [max_]
  exact lineCharWidth_room c wide

theorem Valid.row (valid : Valid c s) : s.Row := valid.caret.row

def Edited (s t : TextArea) : Prop :=
  ∃ lines charPos cursorPos scrollY scrollHeight, t = { s with
    lines := lines, characterPos := charPos, cursorPos := cursorPos, scrollY := scrollY,
    scrollHeight := scrollHeight }

theorem Edited.refl (s : TextArea) : Edited s s := ⟨_, _, _, _, _, rfl⟩

theorem Edited.trans {u : TextArea} (first : Edited s t) (second : Edited t u) :
    Edited s u := by
  obtain ⟨_, _, _, _, _, rfl⟩ := first
  obtain ⟨a, b, d, e, f, rfl⟩ := second
  exact ⟨a, b, d, e, f, rfl⟩

theorem Moved.edited {p : UIPosition Nat} (h : Moved s p t) : Edited s t := by
  obtain ⟨a, b, d, rfl⟩ := h
  exact ⟨_, _, a, b, d, rfl⟩

theorem Valid.edit (valid : Valid c s) (edited : Edited s t)
    (sound : Sound s.maxLineCharWidth t.lines) (caret : InText t.lines t.characterPos) :
    Valid c t := by
  obtain ⟨_, _, _, _, _, rfl⟩ := edited
  exact ⟨sound, caret, valid.settled, valid.ordered⟩

theorem Valid.moved (valid : Valid c s) {p : UIPosition Nat} (inside : InText s.lines p)
    (moved : Moved s p t) : Valid c t := by
  have edited := moved.edited
  obtain ⟨_, _, _, rfl⟩ := moved
  exact valid.edit edited valid.sound inside

/-- The computation comes to an end with a valid area, the text of which it may have
    edited. -/
def Keeps (c : Config) (s : TextArea) (r : Except Fault TextArea) : Prop :=
  Returns r fun t => Valid c t ∧ Edited s t

theorem Keeps.bind {r : Except Fault TextArea} {f : TextArea → Except Fault TextArea}
    (first : Keeps c s r) (rest : ∀ t, Valid c t → Edited s t → Keeps c t (f t)) :
    Keeps c s (r >>= f) :=
  Returns.bind first fun t h =>
    (rest t h.1 h.2).mono fun _ h' => ⟨h'.1, h.2.trans h'.2⟩

theorem Keeps.after {r : Except Fault TextArea} (first : Edited s t) (rest : Keeps c t r) :
    Keeps c s r :=
  rest.mono fun _ h => ⟨h.1, first.trans h.2⟩

theorem keeps_ok (valid : Valid c s) : Keeps c s (.ok s) := .ok ⟨valid, .refl s⟩

theorem Moves.keeps {r : Except Fault TextArea} (moves : Moves s r) (valid : Valid c s) :
    Keeps c s r :=
  moves.mono fun _ ⟨_, inside, moved⟩ => ⟨valid.moved inside moved, moved.edited⟩

theorem keeps_scrolled {r : Except Fault TextArea} (valid : Valid c s)
    (scrolled : Returns r (Scrolled s)) : Keeps c s r :=
  scrolled.mono fun _ h => ⟨valid.moved valid.caret h.moved, h.moved.edited⟩

theorem Valid.setLines (valid : Valid c s) {lines : List TextLine}
    (sound : Sound s.maxLineCharWidth lines) (caret : InText lines s.characterPos) :
    Valid c { s with lines := lines } ∧ Edited s { s with lines := lines } :=
  have edited : Edited s { s with lines := lines } := ⟨_, _, _, _, _, rfl⟩
  ⟨valid.edit edited sound caret, edited⟩

/-- The lines are sound and the caret is inside the text, whatever the area's size. -/
structure Orderly (s : TextArea) : Prop where
  sound : Sound s.maxLineCharWidth s.lines
  caret : InText s.lines s.characterPos

theorem Valid.orderly (valid : Valid c s) : Orderly s := ⟨valid.sound, valid.caret⟩

theorem Orderly.row (orderly : Orderly s) : s.Row := orderly.caret.row

theorem Orderly.setLines {lines : List TextLine} (sound : Sound s.maxLineCharWidth lines)
    (caret : InText lines s.characterPos) :
    Orderly { s with lines := lines } ∧ Edited s { s with lines := lines } :=
  ⟨⟨sound, caret⟩, _, _, _, _, _, rfl⟩

theorem Orderly.moved (orderly : Orderly s) {p : UIPosition Nat} (inside : InText s.lines p)
    (moved : Moved s p t) : Orderly t := by
  obtain ⟨_, _, _, rfl⟩ := moved
  exact ⟨orderly.sound, inside⟩

def Tidy (s : TextArea) (r : Except Fault TextArea) : Prop :=
  Returns r fun t => Orderly t ∧ Edited s t

theorem Tidy.after {r : Except Fault TextArea} (first : Edited s t) (rest : Tidy t r) :
    Tidy s r :=
  rest.mono fun _ h => ⟨h.1, first.trans h.2⟩

theorem Valid.tidied (valid : Valid c s) (edited : Edited s t) (orderly : Orderly t) :
    Valid c t := by
  refine valid.edit edited ?_ orderly.caret
  obtain ⟨_, _, _, _, _, rfl⟩ := edited
  exact orderly.sound

theorem Tidy.keeps {r : Except Fault TextArea} (tidy : Tidy s r) (valid : Valid c s) :
    Keeps c s r :=
  tidy.mono fun _ h => ⟨valid.tidied h.2 h.1, h.2⟩

structure LineRemoved (s : TextArea) (y : Nat) (lines : List TextLine) : Prop where
  sound : Sound s.maxLineCharWidth lines
  caret : InText lines s.characterPos
  shorter : s.characterPos.y < y → lines.length + 1 = s.lines.length

theorem removeLine_ok (orderly : Orderly s) {y : Nat} (row : y < s.lines.length)
    (place : s.characterPos.y < y ∨ s.characterPos.x = 0 ∧ s.characterPos.y = y) :
    Returns (removeLine y s.characterPos.y s) fun r => LineRemoved s y r.1 := by
  have here := List.getElem?_eq_getElem row
  have erased (more : s.characterPos.y < y ∨ y + 1 < s.lines.length) :
      LineRemoved s y ((rejoin s.lines[y].wrapped y s.lines).eraseIdx y) := by
    refine ⟨rejoin_erase_sound here (by omega) orderly.sound,
      rejoin_erase_inText orderly.caret (by omega), fun _ => ?_⟩
    rw [List.length_eraseIdx, rejoin_length, if_pos row]
    omega
  unfold removeLine
  simp only [get_ok row, bind, Except.bind]
  split
  next canvas => exact .ok (erased (.inr (by omega)))
  next =>
    split
    next above => exact .ok (erased (.inl above))
    next below =>
      exact .ok ⟨rejoin_sound here orderly.sound, rejoin_inText _ _ orderly.caret,
        fun above => absurd above below⟩

theorem deleteLine_ok (orderly : Orderly s) {y : Nat} (row : y < s.lines.length)
    (place : s.characterPos.y < y ∨ s.characterPos.x = 0 ∧ s.characterPos.y = y) :
    Returns (deleteLine y s) fun t => Orderly t ∧ Edited s t ∧
      t.characterPos = s.characterPos ∧
      (s.characterPos.y < y → t.lines.length + 1 = s.lines.length) := by
  refine (removeLine_ok orderly row place).bind fun ⟨lines, height⟩ removed => ?_
  obtain ⟨orderly', edited⟩ := Orderly.setLines removed.sound removed.caret
  refine (changeScrollHeight_ok orderly'.row _).mono fun t scrolled => ?_
  refine ⟨orderly'.moved orderly'.caret scrolled.moved, edited.trans scrolled.moved.edited,
    scrolled.moved.characterPos, fun above => ?_⟩
  rw [scrolled.moved.lines]
  exact removed.shorter above

theorem deleteLine_tidy (orderly : Orderly s) {y : Nat} (row : y < s.lines.length)
    (place : s.characterPos.y < y ∨ s.characterPos.x = 0 ∧ s.characterPos.y = y) :
    Tidy s (deleteLine y s) :=
  (deleteLine_ok orderly row place).mono fun _ h => ⟨h.1, h.2.1⟩

theorem wrapremove_tidy (orderly : Orderly s) : Tidy s (wrapremove s) := by
  obtain ⟨line, here, inside⟩ := orderly.caret
  obtain ⟨above, below, lines_, length⟩ := SplitList.split_at here
  have sound := orderly.sound
  rw [lines_] at sound
  obtain ⟨aboveFits, sound⟩ := (Sound.append (by simp)).mp sound
  have enough : below.length < s.lines.length := by
    rw [lines_, List.length_append, List.length_cons]
    omega
  have removed := wrapremovech_removed s.lines.length s.characterPos.x line below enough sound
  have drop : s.lines.drop s.characterPos.y = line :: below := by
    rw [lines_, ← length, List.drop_left]
  have take : s.lines.take s.characterPos.y = above := by
    rw [lines_, ← length, List.take_left]
  unfold wrapremove
  simp only [drop, take]
  generalize wrapremovech s.maxLineCharWidth s.lines.length s.characterPos.x (line :: below) = r
    at removed
  have length' := removed.length
  obtain ⟨first, rest, lines'⟩ := List.exists_cons_of_ne_nil
    (List.length_pos_iff.mp (show 0 < r.1.length by omega))
  have caret : InText (above ++ r.1) s.characterPos := by
    refine ⟨first, ?_, removed.column first (by rw [lines']; rfl) inside⟩
    rw [lines', ← length, SplitList.get_length]
  have sound' : Sound s.maxLineCharWidth (above ++ r.1) :=
    (Sound.append (by simp [lines'])).mpr ⟨aboveFits, removed.sound⟩
  obtain ⟨orderly', edited⟩ := Orderly.setLines sound' caret
  cases deleted : r.2 with
  | none => exact .ok ⟨orderly', edited⟩
  | some d =>
    obtain ⟨positive, within⟩ := removed.deleted d deleted
    refine Tidy.after edited (deleteLine_tidy orderly' ?_ (.inl ?_))
    · simp only [List.length_append, length', length]
      omega
    · simp only
      omega

/-- `removech` would mark the last line wrapped. -/
def MarksLast (s : TextArea) : Prop :=
  s.characterPos.y + 1 = s.lines.length ∧ 0 < s.characterPos.x ∧
    (s.lines[s.characterPos.y]?).map (·.size) = some s.characterPos.x

instance (s : TextArea) : Decidable s.MarksLast := inferInstanceAs (Decidable (_ ∧ _))

theorem removech_tidy (orderly : Orderly s) (fits : ¬ s.MarksLast) : Tidy s (removech s) := by
  obtain ⟨line, here, inside⟩ := orderly.caret
  have row := orderly.row
  obtain ⟨above, below, lines_, length⟩ := SplitList.split_at here
  have sound := orderly.sound
  rw [lines_] at sound
  obtain ⟨aboveFits, sound⟩ := (Sound.append (by simp)).mp sound
  have lineFits := sound.fits line (by simp)
  have set (line' : TextLine) : s.lines.set s.characterPos.y line' = above ++ line' :: below := by
    rw [lines_, ← length, SplitList.set_length]
  have put (line' : TextLine) (sound' : Sound s.maxLineCharWidth (line' :: below))
      (inside' : s.characterPos.x ≤ line'.size) :
      let t := { s with lines := s.lines.set s.characterPos.y line' }
      Orderly t ∧ Edited s t := by
    refine Orderly.setLines ?_ ⟨line', ?_, inside'⟩
    · rw [set]
      exact (Sound.append (by simp)).mpr ⟨aboveFits, sound'⟩
    · rw [set, ← length, SplitList.get_length]
  unfold removech
  simp only [get_ok_iff.mpr here, bind, Except.bind]
  split
  · exact wrapremove_tidy orderly
  next unwrapped =>
    split
    next end_ =>
      have more : below ≠ [] := by
        rintro rfl
        refine fits ⟨?_, end_.2, by rw [here, end_.1]; rfl⟩
        rw [lines_, List.length_append, ← length]
        rfl
      obtain ⟨orderly', edited⟩ := put { line with wrapped := true }
        (.cons more (lineFits.of_same rfl rfl) sound.tail) inside
      exact Tidy.after edited (wrapremove_tidy orderly')
    next notEnd =>
      split
      next end_ =>
        exact deleteLine_tidy orderly row (.inr ⟨by omega, rfl⟩)
      next =>
        obtain ⟨orderly', edited⟩ := put _
          (sound.head (remove_fits lineFits (Nat.le_succ s.characterPos.x)) (remove_wrapped _ _ _))
          (by rw [remove_size]; split <;> omega)
        exact .ok ⟨orderly', edited⟩

theorem removech_keeps (valid : Valid c s) (fits : ¬ s.MarksLast) : Keeps c s (removech s) :=
  (removech_tidy valid.orderly fits).keeps valid

theorem backspace_keeps (valid : Valid c s) : Keeps c s (backspace c s) := by
  unfold backspace
  split
  · exact keeps_ok valid
  next notStart =>
    obtain ⟨t, left, p, inside, moved, before, up⟩ := moveleft_moved (c := c) valid.caret
    have valid' := valid.moved inside moved
    have row := valid.row
    obtain ⟨line, here, within⟩ := valid.caret
    rw [left]
    refine Keeps.after moved.edited (removech_keeps valid' ?_)
    rintro ⟨last, positive, end_⟩
    rw [moved.lines, moved.characterPos] at last end_
    cases column : s.characterPos.x with
    | zero =>
      obtain ⟨y, above⟩ : ∃ y, s.characterPos.y = y + 1 :=
        Nat.exists_eq_add_one_of_ne_zero fun top => notStart ⟨column, top⟩
      have := up column y above
      unfold Row at row
      omega
    | succ x =>
      rw [before x column, here] at end_
      have size : line.size = x := Option.some.inj end_
      omega

theorem not_marksLast_wrapped (valid : Valid c s) {line : TextLine}
    (here : s.lines[s.characterPos.y]? = some line) (wrapped : line.wrapped = true) :
    ¬ s.MarksLast := by
  rintro ⟨last, _⟩
  have unwrapped : line.wrapped = false := by
    refine valid.sound.ends line ?_
    rw [List.getLast?_eq_getElem?, ← last]
    exact here
  rw [wrapped] at unwrapped
  cases unwrapped

theorem moveToNewLine_keeps (valid : Valid c s) {next : TextLine} {unwrapNextLine : Bool}
    (here : s.lines[s.characterPos.y + 1]? = some next)
    (wrapped : unwrapNextLine = true → next.wrapped = true) :
    Keeps c s (moveToNewLine c unwrapNextLine s) := by
  have row' := (List.getElem?_eq_some_iff.mp here).1
  obtain ⟨t, home, moved⟩ := inlinemovehome_moved (c := c) valid.row
  have valid₁ := valid.moved (inText_home valid.row) moved
  have at_ := moved.characterPos
  have more : t.characterPos.y + 1 ≠ t.lines.length := by
    rw [at_, moved.lines]
    exact Nat.ne_of_lt row'
  obtain ⟨u, down, x, inside, moved'⟩ := movedown_moved (c := c) valid₁.row more
  have valid₂ := valid₁.moved inside moved'
  unfold moveToNewLine
  simp only [home, down, bind, Except.bind]
  refine Keeps.after (moved.edited.trans moved'.edited) ?_
  split
  next unwrap =>
    have here₂ : u.lines[u.characterPos.y]? = some next := by
      rw [moved'.lines, moved'.characterPos, at_, moved.lines]
      exact here
    obtain ⟨line, here', within⟩ := valid₂.caret
    cases Option.some.inj (here'.symm.trans here₂)
    obtain ⟨v, end_, moved''⟩ := inlinemoveend_moved here₂ within
    have valid₃ := valid₂.moved (inText_end here₂) moved''
    have here₃ : v.lines[v.characterPos.y]? = some next := by
      rw [moved''.lines, moved''.characterPos]
      exact here₂
    rw [end_]
    refine Keeps.after moved''.edited (Keeps.bind (removech_keeps valid₃ ?_) ?_)
    · exact not_marksLast_wrapped valid₃ here₃ (wrapped unwrap)
    · exact fun w valid₄ _ => (moved_home valid₄.row).keeps valid₄
  next => exact keeps_ok valid₂

structure Split (maxLineCharWidth x : Nat) (line cur new : TextLine) : Prop where
  curCharacters : cur.characters = line.characters.take x
  curWrapped : cur.wrapped = false
  curFits : Fits maxLineCharWidth cur
  newCharacters : new.characters = line.characters.drop x
  newWrapped : new.wrapped = line.wrapped
  newFits : Fits maxLineCharWidth new

theorem Split.cur_size {x : Nat} {line cur new : TextLine}
    (split : Split maxLineCharWidth x line cur new) (inside : x ≤ line.size) : cur.size = x := by
  rw [TextLine.size, split.curCharacters, List.length_take]
  exact Nat.min_eq_left inside

theorem splitLine_split {above below : List TextLine} {line : TextLine}
    (lines : s.lines = above ++ line :: below) (row : s.characterPos.y = above.length)
    (inside : s.characterPos.x ≤ line.size) (fits : Fits s.maxLineCharWidth line) :
    ∃ cur new, Split s.maxLineCharWidth s.characterPos.x line cur new ∧
      splitLine c line s = (do
        let t ← changeScrollHeight new.lineHeight { s with lines := above ++ cur :: new :: below }
        moveToNewLine c (0 < s.characterPos.x && new.wrapped) t) := by
  obtain ⟨newLine, inserted, characters, exact_⟩ :=
    insertAll_new s.currentFontSize (line.characters.drop s.characterPos.x)
  refine ⟨{ line.remove s.characterPos.x line.size with wrapped := false },
    { newLine with wrapped := line.wrapped }, ⟨?_, rfl, ?_, characters, rfl, ?_⟩, ?_⟩
  · have size : line.characters.length = line.size := rfl
    simp only [remove_characters inside]
    rw [← size, List.drop_length, List.append_nil]
  · exact (remove_fits fits inside).of_same rfl rfl
  · refine Fits.of_same ⟨exact_, ?_⟩ rfl rfl
    obtain ⟨curExact, within⟩ := fits
    have all := List.take_append_drop s.characterPos.x line.characters
    unfold Exact at exact_ curExact
    rw [← all, chWidths_append] at curExact
    rw [exact_, characters]
    omega
  · have inserted' := SplitList.insertIdx_length
      (above ++ [{ line.remove s.characterPos.x line.size with wrapped := false }]) below
      { newLine with wrapped := line.wrapped }
    rw [List.length_append, List.length_singleton, List.append_assoc, List.append_assoc,
      List.singleton_append, List.singleton_append] at inserted'
    unfold splitLine
    simp only [inserted, bind, Except.bind]
    rw [lines, row, SplitList.set_length, inserted']

theorem splitLine_keeps (valid : Valid c s) {curLine : TextLine}
    (here : s.lines[s.characterPos.y]? = some curLine) (inside : s.characterPos.x ≤ curLine.size) :
    Keeps c s (splitLine c curLine s) := by
  obtain ⟨above, below, lines_, length⟩ := SplitList.split_at here
  have sound := valid.sound
  rw [lines_] at sound
  obtain ⟨aboveFits, sound⟩ := (Sound.append (by simp)).mp sound
  obtain ⟨cur, new, split, eq⟩ := splitLine_split (c := c) lines_ length.symm inside
    (sound.fits curLine (by simp))
  have sound' := (Sound.append (by simp)).mpr ⟨aboveFits,
    Sound.cons (List.cons_ne_nil _ _) split.curFits (sound.head split.newFits split.newWrapped)⟩
  obtain ⟨valid', edited⟩ := valid.setLines sound'
    ⟨cur, by rw [← length]; exact SplitList.get_length _ _ _,
      Nat.le_of_eq (split.cur_size inside).symm⟩
  have next : (above ++ cur :: new :: below)[s.characterPos.y + 1]? = some new := by
    rw [← length, List.getElem?_append_right (by omega)]
    simp
  obtain ⟨t, changed, scrolled⟩ := changeScrollHeight_ok valid'.row new.lineHeight
  have valid₁ := valid'.moved valid'.caret scrolled.moved
  have next' : t.lines[t.characterPos.y + 1]? = some new := by
    rw [scrolled.moved.lines, scrolled.moved.characterPos]
    exact next
  rw [eq, changed]
  exact Keeps.after (edited.trans scrolled.moved.edited)
    (moveToNewLine_keeps valid₁ next' fun unwrap => ((Bool.and_eq_true _ _).mp unwrap).2)

theorem unwrap_above_keeps (valid : Valid c s) {above : Nat} {prevLine curLine : TextLine}
    (place : s.characterPos = ⟨0, above + 1⟩) (here : s.lines[above + 1]? = some curLine)
    (here' : s.lines[above]? = some prevLine) :
    Keeps c s (.ok { s with lines := s.lines.set above { prevLine with wrapped := false } }) := by
  obtain ⟨before, prev, below, lines_, length⟩ := SplitList.split_two here
  have same : prev = prevLine := by
    rw [lines_, ← length, SplitList.get_length] at here'
    exact Option.some.inj here'
  subst same
  have sound := valid.sound
  rw [lines_] at sound
  obtain ⟨aboveFits, sound⟩ := (Sound.append (by simp)).mp sound
  have sound' : Sound s.maxLineCharWidth (s.lines.set above { prev with wrapped := false }) := by
    rw [lines_, ← length, SplitList.set_length]
    exact (Sound.append (by simp)).mpr ⟨aboveFits,
      .cons (by simp) ((sound.fits prev (by simp)).of_same rfl rfl) sound.tail⟩
  have row := (List.getElem?_eq_some_iff.mp here).1
  refine .ok (valid.setLines sound' ?_)
  rw [place]
  exact inText_home (by simpa using row)

theorem enter_keeps (valid : Valid c s) : Keeps c s (enter c s) := by
  obtain ⟨curLine, here, inside⟩ := valid.caret
  have split := splitLine_keeps valid here inside
  have row := valid.row
  unfold Row at row
  unfold enter
  simp only [get_ok_iff.mpr here, bind, Except.bind]
  rcases place : s.characterPos with ⟨_ | x, _ | above⟩
  · exact split
  · rw [place] at here row
    have here' : s.lines[above]? = some s.lines[above] :=
      List.getElem?_eq_getElem (Nat.lt_of_succ_lt row)
    simp only [get_ok_iff.mpr here']
    split
    · have ended := unwrap_above_keeps valid place here here'
      rwa [place] at ended
    · exact split
  · exact split
  · exact split

theorem doInsert_keeps (valid : Valid c s) {ch : Character}
    (fit : CharFits s.maxLineCharWidth ch) : Keeps c s (doInsert c ch s) := by
  obtain ⟨line, here, inside⟩ := valid.caret
  obtain ⟨above, below, lines_, length⟩ := SplitList.split_at here
  have sound := valid.sound
  rw [lines_] at sound
  obtain ⟨aboveFits, sound⟩ := (Sound.append (by simp)).mp sound
  have drop : s.lines.drop s.characterPos.y = line :: below := by
    rw [lines_, ← length, List.drop_left]
  have take : s.lines.take s.characterPos.y = above := by
    rw [lines_, ← length, List.take_left]
  obtain ⟨r, inserted, done⟩ := insertFrom_ok valid.room s.currentFontSize s.characterPos.x
    s.characterPos.y [ch] (List.cons_ne_nil line below) sound.fits sound.ends
    (by simpa using inside) (by simpa using fit)
  obtain ⟨first, rest, lines'⟩ := List.exists_cons_of_ne_nil done.nonempty
  have first_ : first ∈ r.1.head? := by rw [lines']; rfl
  have column := done.column first first_
  have positive := done.positive (by simp) first first_
  have caretLine : (above ++ r.1)[s.characterPos.y]? = some first := by
    rw [lines', ← length, SplitList.get_length]
  obtain ⟨valid', edited⟩ := valid.setLines
    ((Sound.append done.nonempty).mpr ⟨aboveFits, done.fits, done.ends⟩)
    ⟨first, caretLine, column⟩
  obtain ⟨t, added, scrolled⟩ := linesAdded_ok valid'.row r.2
  have moved := scrolled.moved
  have valid₁ := valid'.moved valid'.caret moved
  have at_ : t.characterPos = s.characterPos := moved.characterPos
  have caretLine' : t.lines[s.characterPos.y]? = some first := by
    rw [moved.lines]
    exact caretLine
  have row : s.characterPos.y < t.lines.length := at_ ▸ valid₁.row
  unfold doInsert
  simp only [drop, take, inserted, added, get_ok_iff.mpr caretLine', bind, Except.bind]
  refine Keeps.after (edited.trans moved.edited) ?_
  split
  next full =>
    obtain ⟨u, put, moved'⟩ := moved_put valid₁.row ⟨1, s.characterPos.y⟩ row
      ⟨ch.chWidth + c.leftMargin, t.cursorPos.y⟩
    have valid₂ := valid₁.moved (inText_at caretLine' positive) moved'
    rw [put]
    exact Keeps.after moved'.edited (Moves.keeps (moved_down valid₂.caret) valid₂)
  next more =>
    have inside' : s.characterPos.x + 1 ≤ first.size := by omega
    exact (moved_put valid₁.row ⟨s.characterPos.x + 1, s.characterPos.y⟩ row _).mono
      fun u moved' => ⟨valid₁.moved (inText_at caretLine' inside') moved', moved'.edited⟩

theorem insert_keeps (valid : Valid c s) {ch : Character}
    (fit : is_new_line ch.ch = false → CharFits s.maxLineCharWidth ch) :
    Keeps c s (insert c ch s) := by
  unfold insert
  split
  · exact enter_keeps valid
  next key => exact doInsert_keeps valid (fit (by simpa using key))

theorem Edited.same_max (h : Edited s t) : t.maxLineCharWidth = s.maxLineCharWidth := by
  obtain ⟨_, _, _, _, _, rfl⟩ := h
  rfl

theorem insertEach_keeps (valid : Valid c s) (characters : List Character)
    (fit : ∀ ch ∈ characters, is_new_line ch.ch = false → CharFits s.maxLineCharWidth ch) :
    Keeps c s (insertEach c characters s) := by
  induction characters generalizing s with
  | nil => exact keeps_ok valid
  | cons ch characters ih =>
    refine Keeps.bind (insert_keeps valid (fit ch (by simp))) fun t valid' edited => ?_
    refine ih valid' fun ch' mem => ?_
    rw [edited.same_max]
    exact fit ch' (List.mem_cons_of_mem _ mem)

theorem removeLines_ok (valid : Valid c s) {y count : Nat} (above : s.characterPos.y = y)
    (enough : y + 1 + count ≤ s.lines.length) :
    Returns (removeLines (y + 1) count s) fun t => Valid c t ∧ Edited s t ∧
      t.characterPos = s.characterPos := by
  induction count generalizing s with
  | zero => exact .ok ⟨valid, .refl s, rfl⟩
  | succ count ih =>
    refine (deleteLine_ok valid.orderly (by omega) (.inl (by omega))).bind ?_
    rintro t ⟨orderly, edited, at_, shorter⟩
    have valid' := valid.tidied edited orderly
    have shorter := shorter (by omega)
    exact (ih valid' (at_ ▸ above) (by omega)).mono fun u h =>
      ⟨h.1, edited.trans h.2.1, h.2.2.trans at_⟩

end TextArea
end StyledText
