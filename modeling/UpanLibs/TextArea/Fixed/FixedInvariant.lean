import UpanLibs.TextArea.Fixed.FixedEdits

/-!
Caret and scroll offset of a `FixedTextArea` after every run of events.
-/
namespace FixedText

open TextInput
namespace FixedTextArea

variable {c : Config} {s t : FixedTextArea}

theorem doInsert_inv (inv : Inv c s) {ch : FixedCharacter} (ok : doInsert c ch s = .ok t) :
    Inv c t := by
  obtain ⟨⟨below', added⟩, inserted, _⟩ := Fallible.bind_ok_iff.mp ok
  obtain ⟨line, here, _⟩ := inv.coherent.caret
  obtain ⟨above, below, split, length⟩ := SplitList.split_at here
  have drop : s.lines.drop s.characterPos.y = line :: below := by
    rw [split, ← length, List.drop_left]
  rw [drop] at inserted
  obtain ⟨x, y, z, done, inv', _⟩ := doInsert_ok (c := c) inv split length inserted
  cases ok.symm.trans done
  exact inv'

theorem insert_inv (inv : Inv c s) {ch : FixedCharacter} (ok : insert c ch s = .ok t) :
    Inv c t := by
  unfold insert at ok
  split at ok
  · exact enter_inv inv ok
  · exact doInsert_inv inv ok

theorem insertEach_inv (inv : Inv c s) {chars : List FixedCharacter}
    (ok : insertEach c chars s = .ok t) : Inv c t := by
  induction chars generalizing s with
  | nil =>
    cases ok
    exact inv
  | cons ch chars ih =>
    obtain ⟨s', inserted, rest⟩ := Fallible.bind_ok_iff.mp ok
    exact ih (insert_inv inv inserted) rest

theorem insertKey_inv (inv : Inv c s) {ch : Nat} (ok : insertKey c ch s = .ok t) :
    Inv c t := by
  unfold insertKey at ok
  split at ok
  · obtain ⟨s', edited, rest⟩ := Fallible.bind_ok_iff.mp ok
    exact insert_inv (editSelection_inv inv edited) rest
  · cases ok
    exact inv

theorem copySelection_inv (inv : Inv c s) (ok : copySelection c s = .ok t) : Inv c t := by
  unfold copySelection at ok
  split at ok
  · obtain ⟨line, _, ok⟩ := Fallible.bind_ok_iff.mp ok
    split at ok
    · cases ok
      exact inv.copied _
    · obtain ⟨chars, _, ok⟩ := Fallible.bind_ok_iff.mp ok
      cases ok
      exact inv.copied _
  · cases ok
    exact inv.copied _

theorem cutSelection_inv (inv : Inv c s) (ok : cutSelection c s = .ok t) : Inv c t := by
  obtain ⟨s', copied, rest⟩ := Fallible.bind_ok_iff.mp ok
  exact editSelection_inv (copySelection_inv inv copied) rest

theorem selectAll_inv (inv : Inv c s) : Inv c (selectAll s) := by
  have cleared := inv.select { s.selectedArea with present := false }
  unfold selectAll
  simp only
  split
  · exact cleared
  · split
    · exact cleared
    · exact cleared.select _

theorem updateSelectedArea_inv (inv : Inv c s) (on key : Bool) (p q : UIPosition Nat) :
    Inv c (updateSelectedArea on key p q s) := by
  unfold updateSelectedArea
  split
  · split
    · split <;> exact inv.select _
    · exact inv.select _
  · exact inv

theorem getLineInfo_row {lines : List FixedTextLine} (_ : 0 < lines.length) {z rows : Int}
    (low : 0 ≤ (getLineInfo c lines z rows).lineIndex) :
    (getLineInfo c lines z rows).lineIndex.toNat < lines.length ∧
      (getLineInfo c lines z rows).lineBaseY =
        c.linesHeight ((getLineInfo c lines z rows).lineIndex.toNat + 1) - 1 - z := by
  have last : (getLineInfo c lines z rows).lineIndex ≤ lines.length - 1 := by
    unfold getLineInfo
    simp only
    split <;> omega
  have base : (getLineInfo c lines z rows).lineBaseY =
      (getLineInfo c lines z rows).lineIndex * c.lineHeight - z + c.lineHeight - 1 := rfl
  generalize getLineInfo c lines z rows = info at low last base ⊢
  obtain ⟨y, index⟩ := Int.eq_ofNat_of_zero_le low
  rw [index] at last base ⊢
  refine ⟨by simp only [Int.toNat_natCast]; omega, ?_⟩
  rw [base, Int.toNat_natCast, c.linesHeight_succ, Config.linesHeight]
  omega

theorem moveToLine_moved (inv : Inv c s) {rows : Int}
    (ok : moveToLine c (getLineInfo c s.lines s.scrollY rows) s = .ok t) : Moved c s t := by
  have positive : 0 < s.lines.length := Nat.lt_of_le_of_lt (Nat.zero_le _) inv.coherent.row
  unfold moveToLine at ok
  split at ok
  · cases ok
  next low =>
    obtain ⟨row, base⟩ := getLineInfo_row positive (Int.not_lt.mp low)
    rw [base, ← c.columnX_zero, updateCursorPosition_ok inv.coherent.row row] at ok
    cases ok
    exact ⟨0, _, s.scrollY, _, List.getElem?_eq_getElem row, Nat.zero_le _,
      inv.coherent.scroll, rfl⟩

theorem pageup_moved (inv : Inv c s) (ok : pageup c s = .ok t) : Moved c s t := by
  obtain ⟨s', scrolled, rest⟩ := Fallible.bind_ok_iff.mp ok
  obtain ⟨inv', same⟩ := vscroll_inv inv scrolled
  exact (moveToLine_moved inv' rest).of_scrolled same

theorem pagedown_moved (inv : Inv c s) (ok : pagedown c s = .ok t) : Moved c s t := by
  obtain ⟨s₁, scrolled, rest⟩ := Fallible.bind_ok_iff.mp ok
  obtain ⟨s₂, moved, rest⟩ := Fallible.bind_ok_iff.mp rest
  obtain ⟨inv₁, same⟩ := vscroll_inv inv scrolled
  have moved := moveToLine_moved inv₁ moved
  have inv₂ := moved.inv inv₁
  obtain ⟨x, y, z, line, here, within, bound, rfl⟩ := moved
  have on : (s₁.caretAt c x y z).OnLine line := ⟨here, within⟩
  rw [inlinemoveend_ok inv₂.coherent on] at rest
  cases rest
  exact Moved.of_scrolled ⟨line.size, y, z, line, here, Nat.le_refl _, bound, rfl⟩ same

theorem backspace_inv (inv : Inv c s) {line : FixedTextLine} (on : s.OnLine line)
    (ok : backspace c s = .ok t) : Inv c t := by
  unfold backspace at ok
  split at ok
  · cases ok
    exact inv
  · obtain ⟨s', left, rest⟩ := Fallible.bind_ok_iff.mp ok
    obtain ⟨s'', left', moved⟩ := moveleft_moved inv.coherent on
    cases left.symm.trans left'
    exact (removech_inv (moved.inv inv) rest).1

theorem moved_inv {op : FixedTextArea → Except Fault FixedTextArea} (inv : Inv c s)
    (total : ∃ t, op s = .ok t ∧ Moved c s t) (ok : op s = .ok t) : Inv c t := by
  obtain ⟨t', done, moved⟩ := total
  cases ok.symm.trans done
  exact moved.inv inv

theorem doKey_inv (inv : Inv c s) {line : FixedTextLine} (on : s.OnLine line) {key : Key}
    (ok : doKey c key s = .ok t) : Inv c t := by
  cases key with
  | up => exact moved_inv inv (moveup_moved inv.coherent on) ok
  | down => exact moved_inv inv (movedown_moved inv.coherent on) ok
  | left => exact moved_inv inv (moveleft_moved inv.coherent on) ok
  | right => exact moved_inv inv (moveright_moved inv.coherent on) ok
  | home =>
    cases ok.symm.trans (inlinemovehome_ok inv.coherent)
    exact inv.caretAt on.1 (Nat.zero_le _) inv.coherent.scroll
  | end_ =>
    cases ok.symm.trans (inlinemoveend_ok inv.coherent on)
    exact inv.caretAt on.1 (Nat.le_refl _) inv.coherent.scroll
  | pageUp => exact (pageup_moved inv ok).inv inv
  | pageDown => exact (pagedown_moved inv ok).inv inv
  | del =>
    simp only [doKey] at ok
    split at ok
    · exact editSelection_inv inv ok
    · exact (removech_inv inv ok).1
  | backspace =>
    simp only [doKey] at ok
    split at ok
    · exact editSelection_inv inv ok
    · exact backspace_inv inv on ok
  | selectAll =>
    cases ok
    exact selectAll_inv inv
  | cut => exact cutSelection_inv inv ok
  | copy => exact copySelection_inv inv ok
  | paste => exact insertEach_inv inv ok
  | other ch => exact insertKey_inv inv ok

theorem validateCursorPos_on (ok : validateCursorPos s = .ok ()) : ∃ line, s.OnLine line := by
  unfold validateCursorPos at ok
  split at ok
  · cases ok
  · obtain ⟨line, got, rest⟩ := Fallible.bind_ok_iff.mp ok
    split at rest
    · cases rest
    next inside => exact ⟨line, get_ok_iff.mp got, Nat.not_lt.mp inside⟩

theorem scrollToCaret_inv (inv : Inv c s) {key : Key} (ok : scrollToCaret c key s = .ok t) :
    Inv c t ∧ t = s.scrolledTo t.scrollY := by
  unfold scrollToCaret at ok
  split at ok
  · exact scrollToY_inv inv ok
  · cases ok
    exact ⟨inv, (scrolledTo_self s).symm⟩

theorem handleInput_inv (inv : Inv c s) {key : Key} {shift : Bool}
    (ok : handleInput c key shift s = .ok t) : Inv c t := by
  obtain ⟨_, valid, ok⟩ := Fallible.bind_ok_iff.mp ok
  obtain ⟨line, on⟩ := validateCursorPos_on valid
  obtain ⟨s₁, scrolled, ok⟩ := Fallible.bind_ok_iff.mp ok
  obtain ⟨s₂, done, ok⟩ := Fallible.bind_ok_iff.mp ok
  cases ok
  obtain ⟨inv₁, same⟩ := scrollToCaret_inv inv scrolled
  have on₁ : s₁.OnLine line := by
    rw [same]
    exact on
  exact updateSelectedArea_inv (doKey_inv inv₁ on₁ done) _ _ _ _

theorem getLineCursorPos_ok (row : 0 < s.lines.length) {x y : Int}
    {charPos cursorPos : UIPosition Int}
    (ok : getLineCursorPos c s.lines x y s.scrollY = .ok (charPos, cursorPos))
    (right : 0 ≤ charPos.x) :
    ∃ line, s.lines[charPos.y.toNat]? = some line ∧ charPos.x.toNat ≤ line.size ∧
      cursorPos = ⟨c.columnX charPos.x.toNat,
        c.linesHeight (charPos.y.toNat + 1) - 1 - s.scrollY⟩ := by
  unfold getLineCursorPos at ok
  simp only at ok
  split at ok
  · cases ok
  next low =>
    obtain ⟨line, got, ok⟩ := Fallible.bind_ok_iff.mp ok
    have base := (getLineInfo_row row (Int.not_lt.mp low)).2
    cases ok
    obtain ⟨column, column_⟩ := Int.eq_ofNat_of_zero_le right
    simp only at column_
    refine ⟨line, get_ok_iff.mp got, ?_, ?_⟩
    · simp only
      split <;> omega
    · simp only [column_, base, Int.toNat_natCast, Config.columnX]

theorem moveCursor_moved (inv : Inv c s) {shift held : Bool} {x y : Int}
    (ok : moveCursor c shift held x y s = .ok t) :
    ∃ s', Moved c s s' ∧
      t = updateSelectedArea (shift || held) true s.characterPos s'.characterPos s' := by
  obtain ⟨⟨charPos, cursorPos⟩, found, ok⟩ := Fallible.bind_ok_iff.mp ok
  by_cases left : charPos.x < 0
  · simp only [if_pos left] at ok
    cases ok
  · simp only [if_neg left] at ok
    have positive : 0 < s.lines.length := Nat.lt_of_le_of_lt (Nat.zero_le _) inv.coherent.row
    obtain ⟨line, here, within, rfl⟩ := getLineCursorPos_ok positive found (Int.not_lt.mp left)
    have row := (List.getElem?_eq_some_iff.mp here).1
    obtain ⟨s₁, put, ok⟩ := Fallible.bind_ok_iff.mp ok
    rw [updateCursorPosition_ok inv.coherent.row row] at put
    cases put
    obtain ⟨s₂, scrolled, ok⟩ := Fallible.bind_ok_iff.mp ok
    cases ok
    have inv₁ := inv.caretAt here within inv.coherent.scroll
    obtain ⟨inv₂, same⟩ := scrollToY_inv inv₁ scrolled
    have moved : Moved c s (s.caretAt c charPos.x.toNat charPos.y.toNat s.scrollY) :=
      ⟨_, _, _, line, here, within, inv.coherent.scroll, rfl⟩
    have bound : s.ScrollBound s₂.scrollY := by
      have scroll := inv₂.coherent.scroll
      rw [same] at scroll
      exact scroll
    exact ⟨s₂, same ▸ moved.scrolledTo bound, rfl⟩

theorem skipLines_found {lines : List FixedTextLine} {charCount : Nat}
    (few : charCount ≤ totalChars lines) (some_ : lines ≠ []) :
    ∃ line, lines[(skipLines lines charCount).1]? = some line ∧
      (skipLines lines charCount).2 ≤ line.size := by
  induction lines generalizing charCount with
  | nil => exact absurd rfl some_
  | cons line below ih =>
    unfold skipLines
    by_cases skip : line.size < charCount
    · rw [totalChars_cons] at few
      have more : below ≠ [] := by
        rintro rfl
        rw [totalChars_nil] at few
        omega
      obtain ⟨line', here, within⟩ := ih (show charCount - line.size ≤ totalChars below by omega)
        more
      simp only [if_pos skip]
      exact ⟨line', by simpa using here, within⟩
    · simp only [if_neg skip]
      exact ⟨line, rfl, Nat.not_lt.mp skip⟩

theorem calculateCharCount_le (lines : List FixedTextLine) (x y : Nat) :
    calculateCharCount lines x y ≤ totalChars lines := by
  induction lines generalizing y with
  | nil => simp [calculateCharCount]
  | cons line below ih =>
    cases y with
    | zero =>
      simp only [calculateCharCount, totalChars_cons]
      omega
    | succ y =>
      have := ih y
      simp only [calculateCharCount, totalChars_cons]
      omega

theorem realign_ok (inv : Inv c s) {width height : Int} (wide : c.minWidth ≤ width)
    (fits : width < s.width → ParagraphFits (c.calcMaxLineChars width) s.lines)
    {lines : List FixedTextLine}
    (ok : realign { s with width := width, height := height,
                           maxLineChars := c.calcMaxLineChars width } = .ok lines) :
    Realigned (c.calcMaxLineChars width) s.lines lines := by
  obtain ⟨buffer, _, wideOld, _, max⟩ := inv.settled
  have pos := c.charWidth_pos
  have room := c.room_le wide
  have roomOld := c.room_le wideOld
  have some_ : s.lines ≠ [] :=
    List.length_pos_iff.mp (Nat.lt_of_le_of_lt (Nat.zero_le _) inv.coherent.row)
  unfold realign at ok
  simp only [buffer] at ok
  split at ok
  next increased =>
    have wider := c.calcMaxLineChars_mono (by omega) (Int.le_of_lt increased)
    cases lines_ : s.lines with
    | nil => exact absurd lines_ some_
    | cons line below =>
      simp only [lines_] at ok
      refine realign_increase 0 line below (fun l mem => ?_) ok
      have := shaped_size inv.shaped (lines_ ▸ mem)
      omega
  next =>
    split at ok
    next decreased =>
      cases ok
      have narrower := c.calcMaxLineChars_mono (by omega) (Int.le_of_lt decreased)
      exact realign_decrease (c.calcMaxLineChars_pos wide) (max ▸ narrower) some_ inv.shaped
        (fits decreased)
    next =>
      cases ok
      have same : width = s.width := by omega
      exact ⟨some_, by rw [same, ← max]; exact inv.shaped, rfl⟩

theorem recalculateScrollYOnResize_bound (count : Nat) :
    ∃ z, recalculateScrollYOnResize c count s = { s with scrollY := z } ∧ s.ScrollBound z := by
  have top := c.linesHeight_nonneg (skipLines s.lines count).1
  unfold recalculateScrollYOnResize
  simp only [Config.linesHeight] at top ⊢
  split
  next uncovered =>
    refine ⟨_, rfl, ?_⟩
    simp only [ScrollBound, newScrollY]
    omega
  next covered =>
    refine ⟨_, rfl, ?_⟩
    simp only [ScrollBound]
    omega

theorem recalculateCursorOnResize_ok {count : Nat} (few : count ≤ totalChars s.lines)
    (some_ : s.lines ≠ []) :
    ∃ x y line, s.lines[y]? = some line ∧ x ≤ line.size ∧
      recalculateCursorOnResize c count s = .ok (s.caretAt c x y s.scrollY) := by
  obtain ⟨line, here, within⟩ := skipLines_found few some_
  have row := (List.getElem?_eq_some_iff.mp here).1
  refine ⟨_, _, line, here, within, ?_⟩
  unfold recalculateCursorOnResize
  simp only [if_pos row, getLineBaseX, get_ok_iff.mpr here, bind, Except.bind,
    getLineBaseY_eq row, Nat.min_eq_left within]
  rfl

theorem realign_ends (ends : layout.Ends s.lines) {lines : List FixedTextLine}
    (ok : realign s = .ok lines) : layout.Ends lines := by
  unfold realign at ok
  split at ok
  · cases lines_ : s.lines with
    | nil =>
      rw [lines_] at ok
      cases ok
      simp [WrappedText.Layout.Ends]
    | cons line below =>
      rw [lines_] at ok ends
      exact (realign_increase_ends 0 line below ends ok).2
  · split at ok
    · cases ok
      exact realign_decrease_ends [] s.lines ends
    · cases ok
      exact ends

structure Resized (c : Config) (s t : FixedTextArea) : Prop where
  inv : Inv c t
  area : t.selectedArea = s.selectedArea
  on : (∃ line, s.OnLine line) → ∃ line, t.OnLine line
  ends : layout.Ends s.lines → layout.Ends t.lines

theorem resize_resized (inv : Inv c s) {width height : Int}
    (fits : max width c.minWidth < s.width →
      ParagraphFits (c.calcMaxLineChars (max width c.minWidth)) s.lines)
    (ok : resize c width height s = .ok t) : Resized c s t := by
  have wide : c.minWidth ≤ max width c.minWidth := Int.le_max_right _ _
  have tall : 0 < max height c.minHeight := by
    have : MIN_OBJECT_SIZE ≤ c.minHeight := Int.le_max_right _ _
    unfold MIN_OBJECT_SIZE at this
    omega
  unfold resize onResize at ok
  generalize max width c.minWidth = w at fits wide ok
  generalize max height c.minHeight = h at tall ok
  obtain ⟨buffer, bufferHeight, _, _, max⟩ := inv.settled
  simp only at ok
  split at ok
  next =>
    obtain ⟨lines, realigned, ok⟩ := Fallible.bind_ok_iff.mp ok
    have aligned := realign_ok inv wide fits realigned
    generalize resized : ({ s with
        width := w, height := h, bufferWidth := w, bufferHeight := h,
        maxLineChars := c.calcMaxLineChars w, lines := lines,
        scrollHeight := lines.length * c.lineHeight } : FixedTextArea) = s₁ at ok
    obtain ⟨z, scrolled, bound⟩ := recalculateScrollYOnResize_bound (c := c) (s := s₁)
      (calculateCharCount s.lines 0 ((getLineInfo c s.lines s.scrollY 0).lineIndex + 1).toNat)
    rw [scrolled] at ok
    have lines₁ : ({ s₁ with scrollY := z } : FixedTextArea).lines = lines := by
      rw [← resized]
    have few := calculateCharCount_le s.lines s.characterPos.x s.characterPos.y
    rw [← aligned.chars, ← lines₁] at few
    obtain ⟨x, y, line, here, within, put⟩ := recalculateCursorOnResize_ok (c := c) few
      (lines₁ ▸ aligned.nonempty)
    cases ok.symm.trans put
    subst resized
    exact ⟨⟨Coherent.caretAt rfl here within bound, aligned.shaped, rfl, rfl, wide, tall, rfl⟩,
      rfl, fun _ => ⟨line, here, within⟩, fun ends => realign_ends (s := { s with
        width := w, height := h, maxLineChars := c.calcMaxLineChars w }) ends realigned⟩
  next same =>
    cases ok
    have sameWidth : w = s.width := by omega
    have sameHeight : h = s.height := by omega
    subst sameWidth sameHeight
    exact ⟨⟨⟨inv.coherent.caret, inv.coherent.base, inv.coherent.content, inv.coherent.scroll⟩,
      inv.shaped, inv.settled⟩, rfl, id, id⟩

theorem init_inv (c : Config) : Inv c (init c) := by
  have pos := c.lineHeight_pos
  have wide : c.minWidth ≤ c.width := by
    have size := c.objectSize.1
    unfold Config.minWidth minSize
    omega
  have tall := c.objectSize.2
  unfold MIN_OBJECT_SIZE at tall
  refine ⟨⟨⟨emptyLine, rfl, ?_⟩, ?_, ?_, ?_⟩, Nat.zero_le _, rfl, rfl, wide, ?_, rfl⟩
  · simp [init, emptyLine, FixedTextLine.size]
  · simp [init, Config.linesHeight]
  · simp [init, Config.linesHeight]
  · simp only [init, ScrollBound]
    omega
  · simp only [init]
    omega

end FixedTextArea

open FixedTextArea

/-- A resize to a smaller width is harmless unless it finds the last line marked wrapped
    and the characters of its paragraph no longer fit in the paragraph's lines. -/
def ResizeFits (c : Config) (s : FixedTextArea) : Event → Prop
  | .resize width _ =>
      max width c.minWidth < s.width →
        ParagraphFits (c.calcMaxLineChars (max width c.minWidth)) s.lines
  | _ => True

theorem step_inv {c : Config} {s t : FixedTextArea} {event : Event} (inv : Inv c s)
    (fits : ResizeFits c s event) (next : step c s event = some t) : Inv c t := by
  have ok := Fallible.toOption_some.mp next
  cases event with
  | key key shift => exact handleInput_inv inv ok
  | mouse shift held x y =>
    obtain ⟨s', moved, rfl⟩ := moveCursor_moved inv ok
    exact updateSelectedArea_inv (moved.inv inv) _ _ _ _
  | scroll rows => exact (vscroll_inv inv ok).1
  | resize width height => exact (resize_resized inv fits ok).inv

theorem run_inv {c : Config} {s : FixedTextArea} {events : List Event}
    (run : Transition.Run (Transition.Guarded (ResizeFits c) (Transition.Steps (step c)))
      (init c) events s) : Inv c s :=
  Transition.run_invariant (Inv c) (fun _ _ _ inv next => step_inv inv next.1 next.2) run
    (init_inv c)

/-- The caret is drawn where its line and column are, and the scroll offset stays inside
    the document. -/
def CaretAndScroll (c : Config) (s : FixedTextArea) : Prop :=
  getLineBaseX c s.lines s.characterPos.x s.characterPos.y = .ok s.cursorPos.x ∧
    s.cursorPos.y = getLineBaseY c s.lines s.characterPos.y s.scrollY ∧
    s.scrollHeight = s.lines.length * c.lineHeight ∧
    0 ≤ s.scrollY ∧ s.scrollY ≤ max 0 (s.scrollHeight - s.height) ∧
    ∀ line ∈ s.lines, line.size ≤ s.maxLineChars

theorem inv_caretAndScroll {c : Config} {s : FixedTextArea} (inv : Inv c s) :
    CaretAndScroll c s := by
  obtain ⟨line, here, column⟩ := inv.coherent.caret
  refine ⟨?_, ?_, inv.coherent.content, inv.coherent.scroll.1, inv.coherent.scroll.2,
    fun _ mem => shaped_size inv.shaped mem⟩
  · simp only [getLineBaseX, get_ok_iff.mpr here, bind, Except.bind, column, Config.columnX]
  · rw [getLineBaseY_eq inv.coherent.row, inv.coherent.base]

theorem caret_and_scroll_coherent {c : Config} {s : FixedTextArea} {events : List Event}
    (run : Transition.Run (Transition.Guarded (ResizeFits c) (Transition.Steps (step c)))
      (init c) events s) : CaretAndScroll c s :=
  inv_caretAndScroll (run_inv run)

instance (c : Config) (s : FixedTextArea) (event : Event) : Decidable (ResizeFits c s event) :=
  match event with
  | .key _ _ => .isTrue trivial
  | .mouse _ _ _ _ => .isTrue trivial
  | .scroll _ => .isTrue trivial
  | .resize width _ => inferInstanceAs (Decidable (max width c.minWidth < s.width → _))

instance (c : Config) (s : FixedTextArea) : Decidable (CaretAndScroll c s) :=
  inferInstanceAs (Decidable (_ ∧ _))

/-- A text area of the default font and the smallest left margin. -/
def plainArea : Config where
  font := ⟨16, false, false, by decide⟩
  leftMargin := 8
  textFGColor := 0
  textBGColor := 0xFFFFFF
  width := 400
  height := 100
  objectSize := by decide
  room := by decide

theorem caret_and_scroll_coherent_typed :
    ∃ s, Transition.runAll (Transition.guarded (ResizeFits plainArea) (step plainArea))
        (init plainArea) [.key (.other 97) false, .key (.other Keyboard_ENTER) false,
          .key .up true, .resize 320 60] = some s ∧ CaretAndScroll plainArea s := by
  have reached : (Transition.runAll (Transition.guarded (ResizeFits plainArea) (step plainArea))
      (init plainArea) [.key (.other 97) false, .key (.other Keyboard_ENTER) false,
        .key .up true, .resize 320 60]).isSome = true := by
    decide +kernel
  obtain ⟨s, here⟩ := Option.isSome_iff_exists.mp reached
  exact ⟨s, here, caret_and_scroll_coherent (Transition.run_guarded_iff.mpr here)⟩

/-- `removech` at the end of the document marks the last line wrapped; a narrower width
    then drops what does not fit in it, and the caret with it. -/
theorem caret_lost_by_narrow_resize :
    ∃ s, Transition.runAll (step plainArea) (init plainArea)
        (List.replicate 40 (.key (.other 97) false) ++ [.key .del false, .resize 320 100]) =
          some s ∧ ¬ CaretAndScroll plainArea s := by
  have reached : ((Transition.runAll (step plainArea) (init plainArea)
      (List.replicate 40 (.key (.other 97) false) ++ [.key .del false, .resize 320 100])).any
        fun s => !decide (CaretAndScroll plainArea s)) = true := by
    decide +kernel
  obtain ⟨s, here, lost⟩ := (Option.any_eq_true _ _).mp reached
  exact ⟨s, here, by simpa using lost⟩

end FixedText
