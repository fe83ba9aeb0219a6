import UpanLibs.TextArea.Styled.AreaEdits

/-!
The lines and the caret of a `TextArea` after every run of events, as long as no event
marks the last line wrapped or uses a selection that the text no longer has.
-/
namespace StyledText

open TextInput Fallible

instance (lines : List TextLine) (p : UIPosition Nat) : Decidable (InText lines p) :=
  decidable_of_iff ((lines[p.y]?).any fun line => p.x ≤ line.size) 
    (by simp [InText, Option.any_eq_true])

namespace TextArea

variable {c : Config} {s t : TextArea}

def SelectionFits (s : TextArea) : Prop :=
  InText s.lines s.selectedArea.p1 ∧ s.selectedArea.p2.y < s.lines.length

instance (s : TextArea) : Decidable s.SelectionFits := inferInstanceAs (Decidable (_ ∧ _))

/-- The calls of `removech` do not mark the last line wrapped. -/
def RemovesFit : Nat → TextArea → Prop
  | 0, _ => True
  | charCount + 1, s => ¬ s.MarksLast ∧ Always (removech s) (RemovesFit charCount)

instance removesFitDecidable : ∀ charCount s, Decidable (RemovesFit charCount s)
  | 0, _ => .isTrue trivial
  | charCount + 1, s =>
      have := removesFitDecidable charCount
      inferInstanceAs (Decidable (¬ s.MarksLast ∧ Always (removech s) (RemovesFit charCount)))

def EditFits (c : Config) (s : TextArea) : Prop :=
  s.selectedArea.present = true →
    s.SelectionFits ∧ Always (startSelection c s) fun r => RemovesFit r.2 r.1

instance (s : TextArea) : Decidable (EditFits c s) := inferInstanceAs (Decidable (_ → _ ∧ _))

def CopyFits (s : TextArea) : Prop :=
  s.selectedArea.present = true → s.selectedArea.p2.y < s.lines.length

instance (s : TextArea) : Decidable s.CopyFits := inferInstanceAs (Decidable (_ → _))

/-- The key meets neither the end of the last line with `removech` nor a selected area
    that is no longer in the text. -/
def KeyFits (c : Config) (key : Key) (s : TextArea) : Prop :=
  match key with
  | .del => EditFits c s ∧ (s.selectedArea.present = false → ¬ s.MarksLast)
  | .backspace => EditFits c s
  | .cut => s.CopyFits ∧ Always (copySelection c s) (EditFits c)
  | .copy => s.CopyFits
  | .other ch => isInsertableKey ch = true → EditFits c s
  | _ => True

instance (key : Key) (s : TextArea) : Decidable (KeyFits c key s) :=
  match key with
  | .del => inferInstanceAs (Decidable (_ ∧ (_ → _)))
  | .backspace => inferInstanceAs (Decidable (EditFits c s))
  | .cut => inferInstanceAs (Decidable (_ ∧ Always _ _))
  | .copy => inferInstanceAs (Decidable s.CopyFits)
  | .other ch => inferInstanceAs (Decidable (isInsertableKey ch = true → _))
  | .up | .down | .left | .right | .home | .end_ | .pageUp | .pageDown | .selectAll
  | .paste => .isTrue trivial

structure SameFont (s t : TextArea) : Prop where
  max : t.maxLineCharWidth = s.maxLineCharWidth
  size : t.currentFontSize = s.currentFontSize
  bold : t.bold = s.bold
  italic : t.italic = s.italic

theorem Edited.sameFont (h : Edited s t) : SameFont s t := by
  obtain ⟨_, _, _, _, _, rfl⟩ := h
  exact ⟨rfl, rfl, rfl, rfl⟩

theorem SameFont.trans {u : TextArea} (first : SameFont s t) (second : SameFont t u) :
    SameFont s u :=
  ⟨second.max.trans first.max, second.size.trans first.size, second.bold.trans first.bold,
    second.italic.trans first.italic⟩

theorem Valid.select (valid : Valid c s) {area : SelectedArea} (ordered : area.p1.y ≤ area.p2.y) :
    Valid c { s with selectedArea := area } :=
  ⟨valid.sound, valid.caret, valid.settled, ordered⟩

theorem removeAll_ok (valid : Valid c s) {charCount : Nat} (fits : RemovesFit charCount s) :
    Keeps c s (removeAll charCount s) := by
  induction charCount generalizing s with
  | zero => exact keeps_ok valid
  | succ charCount ih =>
    refine Returns.bind ((removech_keeps valid fits.1).always fits.2) ?_
    rintro t ⟨⟨valid', edited⟩, fits'⟩
    exact Keeps.after edited (ih valid' fits')

theorem startSelection_ok (valid : Valid c s) (fits : s.SelectionFits) :
    Returns (startSelection c s) fun r => Valid c r.1 ∧ SameFont s r.1 := by
  obtain ⟨inside, row⟩ := fits
  have baseX : Returns (getLineBaseX c s.lines s.selectedArea.p1.x s.selectedArea.p1.y)
      fun _ => True := by
    unfold getLineBaseX
    simp only [get_ok inside.row, bind, Except.bind]
    exact .ok trivial
  unfold startSelection
  refine baseX.bind fun x _ => ?_
  refine (moved_put valid.row _ inside.row _).bind fun t moved => ?_
  have valid₁ := valid.moved inside moved
  refine (scrollToY_ok valid₁.row _).bind fun u scrolled => ?_
  have moved₁ : Moved s s.selectedArea.p1 u :=
    moved.trans (moved.characterPos ▸ scrolled.moved)
  have at_ := moved₁.characterPos
  have lines_ := moved₁.lines
  have same := moved₁.edited.sameFont
  have font : SameFont s { u with selectedArea.present := false } :=
    ⟨same.max, same.size, same.bold, same.italic⟩
  have valid₂ := valid.moved inside moved₁
  have valid₃ : Valid c { u with selectedArea.present := false } := valid₂.select valid₂.ordered
  simp only
  split
  · exact .ok ⟨valid₃, font⟩
  · have enough : s.selectedArea.p1.y + 1 +
        (s.selectedArea.p2.y - (s.selectedArea.p1.y + 1)) ≤ u.lines.length := by
      have := inside.row
      rw [lines_]
      omega
    refine (removeLines_ok valid₃ (congrArg UIPosition.y at_) enough).bind ?_
    rintro v ⟨valid₄, edited, at'⟩
    have row' : s.selectedArea.p1.y < v.lines.length := by
      have := valid₄.row
      rwa [Row, at', show UIPosition.y _ = _ from congrArg UIPosition.y at_] at this
    refine (get_returns row').bind fun line1 _ => ?_
    exact .ok ⟨valid₄, font.trans edited.sameFont⟩

theorem editSelection_ok (valid : Valid c s) (fits : EditFits c s) :
    Returns (editSelection c s) fun t => Valid c t ∧ SameFont s t := by
  unfold editSelection
  split
  next present =>
    obtain ⟨inText, removes⟩ := fits present
    refine Returns.bind ((startSelection_ok valid inText).always removes) ?_
    rintro ⟨t, charCount⟩ ⟨⟨valid', font⟩, removes⟩
    exact (removeAll_ok valid' removes).mono fun u h => ⟨h.1, font.trans h.2.sameFont⟩
  next => exact .ok ⟨valid, (Edited.refl s).sameFont⟩

theorem copyBelow_ok (newLine : Character) (p2x y count : Nat) {lines : List TextLine}
    (enough : count < lines.length) : Returns (copyBelow newLine p2x y count lines) fun _ => True := by
  induction lines generalizing y count with
  | nil => cases enough
  | cons line below ih =>
    cases count with
    | zero => exact .ok trivial
    | succ count =>
      refine (ih (y + 1) count (Nat.lt_of_succ_lt_succ enough)).bind fun copied _ => ?_
      exact .ok trivial

def Copied (s t : TextArea) : Prop := ∃ copyBuffer, t = { s with copyBuffer := copyBuffer }

theorem Valid.copied (valid : Valid c s) (copied : Copied s t) : Valid c t := by
  obtain ⟨_, rfl⟩ := copied
  exact ⟨valid.sound, valid.caret, valid.settled, valid.ordered⟩

theorem copySelection_ok (valid : Valid c s) (fits : s.CopyFits) :
    Returns (copySelection c s) (Copied s) := by
  have ordered := valid.ordered
  unfold copySelection
  split
  next present =>
    have row := fits present
    refine (get_returns (show s.selectedArea.p1.y < s.lines.length by omega)).bind
      fun line1 _ => ?_
    split
    · exact .ok ⟨_, rfl⟩
    · refine (copyBelow_ok _ _ _ _ ?_).bind fun copied _ => .ok ⟨_, rfl⟩
      rw [List.length_drop]
      omega
  next => exact .ok ⟨_, rfl⟩

theorem le_row {p q : UIPosition Nat} :
    if p.le q then p.y ≤ q.y else q.y ≤ p.y := by
  unfold UIPosition.le
  by_cases same : p.y = q.y
  · simp [same]
  · have differ : p ≠ q := fun eq => same (congrArg UIPosition.y eq)
    simp only [same, differ, if_false, decide_false, Bool.or_false, decide_eq_true_eq]
    split <;> omega

theorem setRange_ordered (area : SelectedArea) (pa pb : UIPosition Nat) :
    (area.setRange pa pb).p1.y ≤ (area.setRange pa pb).p2.y := by
  have order := le_row (p := pa) (q := pb)
  unfold SelectedArea.setRange
  simp only
  split
  next le => rwa [if_pos le] at order
  next le => rwa [if_neg le] at order

theorem selectAll_valid (valid : Valid c s) : Valid c (selectAll s) := by
  have cleared : Valid c { s with selectedArea.present := false } := valid.select valid.ordered
  unfold selectAll
  simp only
  split
  · exact cleared
  · split
    · exact cleared
    · exact cleared.select (setRange_ordered _ _ _)

theorem updateSelectedArea_valid (valid : Valid c s) (on key : Bool) (p q : UIPosition Nat) :
    Valid c (updateSelectedArea on key p q s) := by
  unfold updateSelectedArea
  split
  · split
    · split
      · exact valid.select (setRange_ordered _ _ _)
      · exact valid.select (setRange_ordered _ _ _)
    · exact valid.select valid.ordered
  · exact valid

theorem createCharacter_same (font : SameFont s t) (ch : Nat) :
    createCharacter c ch t = createCharacter c ch s := by
  simp only [createCharacter, font.size, font.bold, font.italic]

def CharactersFit (c : Config) (s : TextArea) : Key → Prop
  | .other ch => isInsertableKey ch = true → is_new_line ch = false →
      CharFits s.maxLineCharWidth (createCharacter c ch s)
  | .paste => ∀ ch ∈ s.copyBuffer, is_new_line ch.ch = false → CharFits s.maxLineCharWidth ch
  | _ => True

theorem insertKey_ok (valid : Valid c s) {ch : Nat} (fit : CharactersFit c s (.other ch))
    (fits : KeyFits c (.other ch) s) : Returns (insertKey c ch s) (Valid c) := by
  unfold insertKey
  split
  next key =>
    refine (editSelection_ok valid (fits key)).bind fun t ⟨valid', font⟩ => ?_
    refine (insert_keeps valid' fun plain => ?_).mono fun u h => h.1
    rw [font.max, createCharacter_same font]
    exact fit key plain
  next => exact .ok valid

theorem Keeps.valid {r : Except Fault TextArea} (keeps : Keeps c s r) : Returns r (Valid c) :=
  keeps.mono fun _ h => h.1

theorem doKey_ok (valid : Valid c s) {key : Key} (fit : CharactersFit c s key)
    (fits : KeyFits c key s) : Returns (doKey c key s) (Valid c) := by
  have move {r : Except Fault TextArea} (moves : Moves s r) : Returns r (Valid c) :=
    (moves.keeps valid).valid
  have edit (fits : EditFits c s) : Returns (editSelection c s) (Valid c) :=
    (editSelection_ok valid fits).mono fun _ h => h.1
  cases key with
  | up => exact move (moved_up valid.caret)
  | down => exact move (moved_down valid.caret)
  | left => exact move (moved_left valid.caret)
  | right => exact move (moved_right valid.caret)
  | home => exact move (moved_home valid.row)
  | end_ => exact move (moved_end valid.caret)
  | pageUp => exact move (moved_pageup valid.caret)
  | pageDown => exact move (moved_pagedown valid.caret)
  | del =>
    simp only [doKey]
    split
    · exact edit fits.1
    next absent => exact (removech_keeps valid (fits.2 (by simpa using absent))).valid
  | backspace =>
    simp only [doKey]
    split
    · exact edit fits
    · exact (backspace_keeps valid).valid
  | selectAll => exact .ok (selectAll_valid valid)
  | cut =>
    refine Returns.bind ((copySelection_ok valid fits.1).always fits.2) ?_
    rintro t ⟨copied, fits'⟩
    exact (editSelection_ok (valid.copied copied) fits').mono fun _ h => h.1
  | copy => exact (copySelection_ok valid fits).mono fun _ copied => valid.copied copied
  | paste => exact (insertEach_keeps valid s.copyBuffer fit).valid
  | other ch => exact insertKey_ok valid fit fits

theorem validateCursorPos_ok (valid : Valid c s) : validateCursorPos s = .ok () := by
  obtain ⟨line, here, inside⟩ := valid.caret
  have row := valid.row
  unfold validateCursorPos
  rw [if_neg (Nat.not_le.mpr row)]
  simp only [get_ok_iff.mpr here, bind, Except.bind]
  rw [if_neg (Nat.not_lt.mpr inside)]

theorem scrollToCaret_ok (row : s.Row) (key : Key) :
    Returns (scrollToCaret key s) (Scrolled s) := by
  unfold scrollToCaret
  split
  · exact scrollToY_ok row _
  · exact .ok (.refl s)

theorem CharactersFit.scrolled {key : Key} (fit : CharactersFit c s key) (h : Scrolled s t) :
    CharactersFit c t key := by
  obtain ⟨_, _, _, rfl⟩ := h
  cases key <;> exact fit

theorem handleInput_ok (valid : Valid c s) {key : Key} {shift : Bool}
    (fit : CharactersFit c s key) (fits : Always (scrollToCaret key s) (KeyFits c key)) :
    Returns (handleInput c key shift s) (Valid c) := by
  have checked : Returns (validateCursorPos s) fun _ => True :=
    ⟨(), validateCursorPos_ok valid, trivial⟩
  unfold handleInput
  refine checked.bind fun _ _ => ?_
  refine Returns.bind ((scrollToCaret_ok valid.row key).always fits) ?_
  rintro t ⟨scrolled, fits'⟩
  have valid' := valid.moved valid.caret scrolled.moved
  refine (doKey_ok valid' (fit.scrolled scrolled) fits').bind fun u valid₂ => ?_
  exact .ok (updateSelectedArea_valid valid₂ _ _ _ _)

theorem getLineCursorPos_ok (valid : Valid c s) (x y : Int) :
    Returns (getLineCursorPos c s.lines x y s.scrollY) fun r => InText s.lines r.1 := by
  have some_ : s.lines ≠ [] :=
    List.length_pos_iff.mp (Nat.lt_of_le_of_lt (Nat.zero_le _) valid.row)
  unfold getLineCursorPos
  refine (getLineInfo_ok some_ _ _).bind fun info row => ?_
  refine (get_returns row).bind fun line here => ?_
  exact .ok (inText_at here (columnIn_le c line x))

theorem moveCursor_ok (valid : Valid c s) (shift held : Bool) (x y : Int) :
    Returns (moveCursor c shift held x y s) (Valid c) := by
  unfold moveCursor
  refine (getLineCursorPos_ok valid x y).bind fun ⟨charPos, cursorPos⟩ inside => ?_
  refine (moved_put valid.row charPos inside.row cursorPos).bind fun t moved => ?_
  have valid₁ := valid.moved inside moved
  refine (scrollToY_ok valid₁.row _).bind fun u scrolled => ?_
  exact .ok (updateSelectedArea_valid (valid₁.moved valid₁.caret scrolled.moved) _ _ _ _)

theorem skipLines_found {lines : List TextLine} {charCount : Nat}
    (few : charCount ≤ totalCharacters lines) (some_ : lines ≠ []) :
    InText lines ⟨(skipLines lines charCount).2, (skipLines lines charCount).1⟩ := by
  induction lines generalizing charCount with
  | nil => exact absurd rfl some_
  | cons line below ih =>
    unfold skipLines
    by_cases skip : line.size < charCount
    · rw [totalCharacters_cons] at few
      have more : below ≠ [] := by
        rintro rfl
        rw [totalCharacters_nil] at few
        omega
      have few' : charCount - line.size ≤ totalCharacters below := by omega
      obtain ⟨line', here, within⟩ := ih few' more
      simp only [if_pos skip]
      exact inText_at (by simpa using here) within
    · simp only [if_neg skip]
      exact inText_at rfl (Nat.not_lt.mp skip)

theorem calculateCharCount_le (lines : List TextLine) (x y : Nat) :
    calculateCharCount lines x y ≤ totalCharacters lines := by
  induction lines generalizing y with
  | nil => simp [calculateCharCount]
  | cons line below ih =>
    rw [totalCharacters_cons]
    cases y with
    | zero =>
      rw [calculateCharCount]
      omega
    | succ y =>
      have := ih y
      rw [calculateCharCount]
      omega

theorem realign_ok (valid : Valid c s) {width height : Int} (wide : c.minWidth ≤ width)
    (fit : ∀ ch ∈ allCharacters s.lines, CharFits (c.lineCharWidth width) ch) :
    Returns (realign { s with width := width, height := height,
                              maxLineCharWidth := c.lineCharWidth width })
      (Realigned (c.lineCharWidth width) (allCharacters s.lines) s.lines) := by
  obtain ⟨buffer, _, max_⟩ := valid.settled
  obtain ⟨fits, ends⟩ := valid.sound
  unfold realign
  simp only [buffer]
  split
  next wider =>
    have grown : s.maxLineCharWidth ≤ c.lineCharWidth width := by
      rw [max_]
      unfold Config.lineCharWidth
      omega
    obtain ⟨line, below, lines_⟩ := List.exists_cons_of_ne_nil
      (List.ne_nil_of_length_pos (Nat.lt_of_le_of_lt (Nat.zero_le _) valid.row))
    have sound : Sound (c.lineCharWidth width) s.lines :=
      ⟨fun l mem => ⟨(fits l mem).1, Nat.le_trans (fits l mem).2 grown⟩, ends⟩
    rw [lines_] at sound ⊢
    exact (realignOnWidthIncrease_holds 0 line below sound).mono fun r holds =>
      ⟨fun _ => holds.nonempty, ⟨holds.fits, holds.ends⟩, holds.all⟩
  next =>
    split
    next narrower =>
      have room := lineCharWidth_room c wide
      exact realignOnWidthDecrease_ok room s.currentFontSize [] s.lines
        (fun l mem => (fits l mem).1) ends (by simp) fit
    next =>
      have same : width = s.width := by omega
      subst same
      exact .ok ⟨id, max_ ▸ ⟨fits, ends⟩, rfl⟩

theorem recalculateScrollYOnResize_eq (count : Nat) :
    ∃ z, recalculateScrollYOnResize count s = { s with scrollY := z } := by
  unfold recalculateScrollYOnResize
  simp only
  split
  · exact ⟨_, rfl⟩
  · exact ⟨_, rfl⟩

theorem recalculateCursorOnResize_ok {count : Nat} (few : count ≤ totalCharacters s.lines)
    (some_ : s.lines ≠ []) :
    Returns (recalculateCursorOnResize c count s) fun t =>
      ∃ p, InText s.lines p ∧ Moved s p t := by
  have inside := skipLines_found few some_
  have row := inside.row
  unfold recalculateCursorOnResize
  simp only [if_pos row, getLineBaseX, get_ok row, bind, Except.bind]
  exact .ok ⟨_, inside, _, _, _, rfl⟩

theorem onResize_ok (valid : Valid c s) {width height : Int} (wide : c.minWidth ≤ width)
    (fit : ∀ ch ∈ allCharacters s.lines, CharFits (c.lineCharWidth width) ch) :
    Returns (onResize c { s with width := width, height := height }) (Valid c) := by
  have some_ : s.lines ≠ [] :=
    List.ne_nil_of_length_pos (Nat.lt_of_le_of_lt (Nat.zero_le _) valid.row)
  unfold onResize
  split
  next =>
    refine Returns.bind (getLineInfo_ok some_ _ _) fun info _ => ?_
    refine Returns.bind (realign_ok valid wide fit) fun lines realigned => ?_
    have few : calculateCharCount s.lines s.characterPos.x s.characterPos.y ≤
        totalCharacters lines := by
      rw [totalCharacters_eq, realigned.all, ← totalCharacters_eq]
      exact calculateCharCount_le _ _ _
    obtain ⟨z, scrolled⟩ := recalculateScrollYOnResize_eq
      (s := { s with
        width := width, height := height, maxLineCharWidth := c.lineCharWidth width,
        bufferWidth := width, bufferHeight := height, lines := lines,
        scrollHeight := calculateHeight lines })
      (calculateCharCount s.lines 0 (info.lineIndex + 1).toNat)
    simp only [scrolled]
    refine (recalculateCursorOnResize_ok few (realigned.nonempty some_)).mono ?_
    rintro t ⟨p, inside, _, _, _, rfl⟩
    exact ⟨realigned.sound, inside, ⟨rfl, wide, rfl⟩, valid.ordered⟩
  next same =>
    obtain ⟨buffer, _, max_⟩ := valid.settled
    have same : width = s.width := by
      simp only [buffer] at same
      omega
    subst same
    exact .ok ⟨valid.sound, valid.caret, ⟨buffer, wide, max_⟩, valid.ordered⟩

theorem init_valid (c : Config) : Valid c (init c) := by
  have wide : c.minWidth ≤ c.width := by
    have size := c.objectSize.1
    unfold Config.minWidth minSize
    omega
  have room := lineCharWidth_room c wide
  have empty : Fits (c.lineCharWidth c.width) (newTextLine DEFAULT_FONT_SIZE) :=
    ⟨exact_newTextLine _, room⟩
  have holds := holds_single empty rfl
  exact ⟨⟨holds.fits, holds.ends⟩, ⟨newTextLine DEFAULT_FONT_SIZE, rfl, Nat.le_refl _⟩,
    ⟨rfl, wide, rfl⟩, Nat.le_refl _⟩

end TextArea

open TextArea

variable {c : Config} {s t : TextArea}

/-- Each character fits in a line of its own, also in lines of the new width. -/
def Fit (c : Config) (s : TextArea) : Event → Prop
  | .key key _ => CharactersFit c s key
  | .resize width _ => ∀ ch ∈ allCharacters s.lines,
      CharFits (c.lineCharWidth (max width c.minWidth)) ch
  | _ => True

/-- The event meets neither the end of the last line with `removech` nor a selected area
    that is no longer in the text. -/
def Harmless (c : Config) (s : TextArea) : Event → Prop
  | .key key _ => Always (scrollToCaret key s) (KeyFits c key)
  | _ => True

def Allowed (c : Config) (s : TextArea) (event : Event) : Prop := Fit c s event ∧ Harmless c s event

theorem handle_ok (valid : Valid c s) {event : Event} (allowed : Allowed c s event) :
    Returns (handle c s event) (Valid c) := by
  obtain ⟨fit, harmless⟩ := allowed
  cases event with
  | key key shift => exact handleInput_ok valid fit harmless
  | style italic =>
    have checked : Returns (validateCursorPos s) fun _ => True :=
      ⟨(), validateCursorPos_ok valid, trivial⟩
    refine checked.bind fun _ _ => ?_
    refine .ok ?_
    split <;> exact ⟨valid.sound, valid.caret, valid.settled, valid.ordered⟩
  | font fontSize => exact .ok ⟨valid.sound, valid.caret, valid.settled, valid.ordered⟩
  | mouse shift held x y => exact moveCursor_ok valid shift held x y
  | scroll rows => exact (keeps_scrolled valid (vscroll_ok valid.row rows)).valid
  | resize width height => exact onResize_ok valid (Int.le_max_right _ _) fit

/-- The structure of the lines and the place of the caret. -/
def LineStructure (s : TextArea) : Prop :=
  s.lines ≠ [] ∧
    (∀ y, (row : y < s.lines.length) → s.lines[y].wrapped = true → y + 1 < s.lines.length) ∧
    (∀ line ∈ s.lines, line.width = MIN_CURSOR_WIDTH_BUFFER + chWidths line.characters ∧
      line.width ≤ s.maxLineCharWidth) ∧
    InText s.lines s.characterPos

theorem Valid.lineStructure (valid : Valid c s) : LineStructure s := by
  refine ⟨List.ne_nil_of_length_pos (Nat.lt_of_le_of_lt (Nat.zero_le _) valid.row), ?_,
    valid.sound.fits, valid.caret⟩
  intro y row wrapped
  by_contra last
  have unwrapped : s.lines[y].wrapped = false := by
    refine valid.sound.ends _ ?_
    rw [List.getLast?_eq_getElem?, show s.lines.length - 1 = y by omega]
    exact List.getElem?_eq_getElem row
  rw [wrapped] at unwrapped
  cases unwrapped

theorem run_valid {events : List Event}
    (run : Transition.Run (Transition.Guarded (Allowed c) (Transition.Steps (step c)))
      (init c) events s) : Valid c s := by
  refine Transition.run_invariant (Valid c) (fun s event t valid next => ?_) run (init_valid c)
  obtain ⟨u, ok, valid'⟩ := handle_ok valid next.1
  have same : t = u := Except.ok.inj ((toOption_some.mp next.2).symm.trans ok)
  exact same ▸ valid'

theorem line_structure_kept {events : List Event}
    (run : Transition.Run (Transition.Guarded (Allowed c) (Transition.Steps (step c)))
      (init c) events s) :
    LineStructure s ∧ ∀ event, Allowed c s event → ∃ t, handle c s event = .ok t ∧
      LineStructure t := by
  have valid := run_valid run
  refine ⟨Valid.lineStructure valid, fun event allowed => ?_⟩
  obtain ⟨t, ok, valid'⟩ := handle_ok valid allowed
  exact ⟨t, ok, Valid.lineStructure valid'⟩

instance (maxLineCharWidth : Nat) (ch : Character) : Decidable (CharFits maxLineCharWidth ch) :=
  inferInstanceAs (Decidable (_ ≤ _))

instance (key : Key) : Decidable (CharactersFit c s key) :=
  match key with
  | .other _ => inferInstanceAs (Decidable (_ → _ → CharFits _ _))
  | .paste => inferInstanceAs (Decidable (∀ ch ∈ s.copyBuffer, _ → CharFits _ ch))
  | .up | .down | .left | .right | .home | .end_ | .pageUp | .pageDown | .del | .backspace
  | .selectAll | .cut | .copy => .isTrue trivial

instance (event : Event) : Decidable (Fit c s event) :=
  match event with
  | .key key _ => inferInstanceAs (Decidable (CharactersFit c s key))
  | .resize _ _ => inferInstanceAs (Decidable (∀ ch ∈ allCharacters s.lines, CharFits _ ch))
  | .style _ | .font _ | .mouse _ _ _ _ | .scroll _ => .isTrue trivial

instance (event : Event) : Decidable (Harmless c s event) :=
  match event with
  | .key key _ => inferInstanceAs (Decidable (Always _ (KeyFits c key)))
  | .style _ | .font _ | .mouse _ _ _ _ | .scroll _ | .resize _ _ => .isTrue trivial

instance (event : Event) : Decidable (Allowed c s event) := inferInstanceAs (Decidable (_ ∧ _))

instance (s : TextArea) : Decidable (LineStructure s) := inferInstanceAs (Decidable (_ ∧ _ ∧ _ ∧ _))

theorem plainArea_size : MIN_OBJECT_SIZE ≤ (400 : Int) ∧ MIN_OBJECT_SIZE ≤ (100 : Int) := by
  decide

/-- An area with room for 47 characters of the default font a line. -/
def plainArea : Config where
  leftMargin := 8
  fgColor := 0
  bgColor := 0xFFFFFF
  width := 400
  height := 100
  objectSize := plainArea_size
  room := by decide

theorem line_structure_kept_typed :
    ∃ s, Transition.runAll (Transition.guarded (Allowed plainArea) (step plainArea))
        (init plainArea) [.key (.other 97) false, .font 32, .key (.other 98) false,
          .key (.other Keyboard_ENTER) false, .key .up true, .key .cut false,
          .key .paste false, .resize 320 60] = some s ∧
      (LineStructure s ∧ ∀ event, Allowed plainArea s event →
        ∃ t, handle plainArea s event = .ok t ∧ LineStructure t) := by
  have reached : (Transition.runAll (Transition.guarded (Allowed plainArea) (step plainArea))
      (init plainArea) [.key (.other 97) false, .font 32, .key (.other 98) false,
        .key (.other Keyboard_ENTER) false, .key .up true, .key .cut false,
        .key .paste false, .resize 320 60]).isSome = true := by
    decide +kernel
  obtain ⟨s, here⟩ := Option.isSome_iff_exists.mp reached
  exact ⟨s, here, line_structure_kept (Transition.run_guarded_iff.mpr here)⟩

/-- `removech` at the end of the document marks the last line wrapped. -/
theorem last_line_marked_wrapped :
    ∃ s, Transition.runAll (Transition.guarded (Fit plainArea) (step plainArea))
        (init plainArea) [.key (.other 97) false, .key .del false] = some s ∧
      ¬ LineStructure s := by
  have reached : ((Transition.runAll (Transition.guarded (Fit plainArea) (step plainArea))
      (init plainArea) [.key (.other 97) false, .key .del false]).any
        fun s => !decide (LineStructure s)) = true := by
    decide +kernel
  obtain ⟨s, here, broken⟩ := (Option.any_eq_true _ _).mp reached
  exact ⟨s, here, by simpa using broken⟩

end StyledText
