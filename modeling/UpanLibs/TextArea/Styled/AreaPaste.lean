import UpanLibs.TextArea.Styled.AreaEnter

/-!
Copying a selection of a `TextArea` and pasting it at the end of a text. The copied
characters stand for the selected text, with a character of their own for each newline in
it; pasting types them one after the other, so that the lines of the target break where
they do at its own width.
-/
namespace StyledText

open TextInput Fallible
open WrappedText (Layout Sym Editor Edit)
open WrappedText.Layout (symbols)

variable {maxLineCharWidth : Nat}

/-- The last line of an area after a character was put at its end: the character is in it or
    in a line of its own below. -/
inductive Lengthened (line : TextLine) (ch : Character) : List TextLine → Prop where
  | stays {kept : TextLine} (characters : kept.characters = line.characters ++ [ch])
      (unwrapped : kept.wrapped = false) : Lengthened line ch [kept]
  | goes {kept last : TextLine} (characters : kept.characters = line.characters)
      (wrapped : kept.wrapped = true) (alone : last.characters = [ch])
      (unwrapped : last.wrapped = false) : Lengthened line ch [kept, last]

theorem newLines_one (room : MIN_CURSOR_WIDTH_BUFFER ≤ maxLineCharWidth) (fontSize : Nat)
    {ch : Character} (fit : CharFits maxLineCharWidth ch) :
    Returns (newLines maxLineCharWidth fontSize 1 [ch]) fun added =>
      ∃ last, added = [last] ∧ last.characters = [ch] ∧ last.wrapped = false := by
  obtain ⟨filled, kept, over_, refilled⟩ := refill room
    (exact_newTextLine fontSize) 0 [] [] [ch] rfl rfl
  have all := refilled.all
  rw [List.nil_append, List.append_nil] at all
  have unwrapped : kept.wrapped = false := refilled.kept.wrapped.trans refilled.wrapped
  have positive := refilled.positive (show [] ++ [ch] ++ [] = [ch] from rfl) fit
  obtain rfl : over_ = [] := by
    have total := congrArg List.length all
    have size : kept.characters.length = kept.size := rfl
    rw [List.length_append, List.length_singleton] at total
    exact List.length_eq_zero_iff.mp (by omega)
  rw [List.append_nil] at all
  simp only [newLines, refilled.inserted, refilled.taken, bind, Except.bind]
  exact .ok ⟨kept, rfl, all, unwrapped⟩

theorem insertFrom_end (room : MIN_CURSOR_WIDTH_BUFFER ≤ maxLineCharWidth) (fontSize lineY : Nat)
    {line : TextLine} (fits : Fits maxLineCharWidth line) (unwrapped : line.wrapped = false)
    {ch : Character} (fit : CharFits maxLineCharWidth ch) :
    Returns (insertFrom maxLineCharWidth fontSize line.size lineY [ch] [line]) fun r =>
      Lengthened line ch r.1 := by
  have size : line.characters.length = line.size := rfl
  obtain ⟨filled, kept, over_, refilled⟩ := refill room fits.1 line.size
    (line.characters.take line.size) (line.characters.drop line.size) [ch]
    (List.take_append_drop _ _).symm (by simp [size])
  have column := refilled.column fits (Nat.le_refl _)
  have all := refilled.all
  simp only [← size, List.take_length, List.drop_length, List.append_nil] at all
  have wrapped' : kept.wrapped = line.wrapped := refilled.kept.wrapped.trans refilled.wrapped
  have keptSize : kept.characters.length = kept.size := rfl
  simp only [insertFrom, refilled.inserted, refilled.taken, bind, Except.bind]
  cases over_ with
  | nil =>
    rw [List.append_nil] at all
    exact .ok (.stays all (wrapped'.trans unwrapped))
  | cons next over_ =>
    have length : kept.characters.length = line.characters.length := by
      have total := congrArg List.length all
      simp only [List.length_append, List.length_cons, List.length_nil] at total
      omega
    obtain ⟨characters, alone⟩ := List.append_inj all length
    obtain ⟨added, new, last, rfl, single, closed_⟩ := newLines_one room fontSize fit
    have flag : ¬ kept.wrapped = true := by simp [wrapped', unwrapped]
    simp only [List.isEmpty_cons, Bool.false_eq_true, if_false, if_neg flag, alone,
      List.length_singleton, new]
    exact .ok (.goes characters rfl single closed_)

namespace TextArea

variable {c : Config} {s t : TextArea}

structure AtTextEnd (s : TextArea) (above : List TextLine) (line : TextLine) : Prop where
  sound : Sound s.maxLineCharWidth s.lines
  caret : Caret s above line []
  column : s.characterPos.x = line.size

theorem AtTextEnd.unwrapped {above : List TextLine} {line : TextLine} (h : AtTextEnd s above line) :
    line.wrapped = false := by
  refine h.sound.ends line ?_
  simp [h.caret.lines]

theorem AtTextEnd.text {above : List TextLine} {line : TextLine} (h : AtTextEnd s above line) :
    layout.text s.lines = layout.textAbove above ++ symbols line.characters := by
  rw [h.caret.lines, layout.text_append (by simp)]
  rfl

def Appends (s : TextArea) (sym : Sym Character) (t : TextArea) : Prop :=
  t.maxLineCharWidth = s.maxLineCharWidth ∧ (∃ above line, AtTextEnd t above line) ∧
    layout.text t.lines = layout.text s.lines ++ [sym]

def Ended (above : List TextLine) (line : TextLine) (ch : Character) (t : TextArea) : Prop :=
  ∃ lines, Lengthened line ch lines ∧ t.lines = above ++ lines ∧
    t.characterPos.y + 1 = t.lines.length ∧
    ∀ last ∈ t.lines.getLast?, t.characterPos.x = last.size

theorem doInsert_ended {above : List TextLine} {line : TextLine} (h : AtTextEnd s above line)
    {ch : Character} (fit : CharFits s.maxLineCharWidth ch) :
    Returns (doInsert c ch s) (Ended above line ch) := by
  have caret := h.caret
  have room : MIN_CURSOR_WIDTH_BUFFER ≤ s.maxLineCharWidth := Nat.le_of_add_left_le fit
  have drop : s.lines.drop s.characterPos.y = [line] := by
    rw [caret.lines, caret.row, List.drop_left]
  have take : s.lines.take s.characterPos.y = above := by
    rw [caret.lines, caret.row, List.take_left]
  have fits : Fits s.maxLineCharWidth line := h.sound.fits line (by simp [caret.lines])
  obtain ⟨⟨lines, added⟩, inserted, longer⟩ := insertFrom_end room s.currentFontSize
    s.characterPos.y fits h.unwrapped fit
  simp only at longer
  have some_ : 0 < lines.length := by cases longer <;> simp
  have row : Row { s with lines := above ++ lines } := by
    have place := caret.row
    simp only [Row, List.length_append]
    omega
  obtain ⟨t, scroll, scrolled⟩ := linesAdded_ok row added
  have moved := scrolled.moved
  have at_ : t.characterPos = s.characterPos := moved.characterPos
  have lines_ : t.lines = above ++ lines := moved.lines
  have row' : t.Row := by
    rw [Row, at_, lines_]
    exact row
  unfold doInsert
  simp only [drop, take, h.column, inserted, scroll, bind, Except.bind]
  cases longer with
  | @stays kept characters unwrapped =>
    have here : t.lines[s.characterPos.y]? = some kept := by
      rw [lines_, caret.row, SplitList.get_length]
    have size : kept.size = line.size + 1 := by simp [TextLine.size, characters]
    have apart : kept.size ≠ line.size := by omega
    simp only [get_ok_iff.mpr here, if_neg apart]
    rw [updateCursorPosition_ok row' (by rw [← at_]; exact row')]
    refine .ok ⟨_, .stays characters unwrapped, lines_, ?_, ?_⟩
    · simp [lines_, caret.row]
    · simp [lines_, size]
  | @goes kept last characters wrapped alone unwrapped =>
    have here : t.lines[s.characterPos.y]? = some kept := by
      rw [lines_, caret.row, SplitList.get_length]
    have next : t.lines[s.characterPos.y + 1]? = some last := by
      rw [lines_, caret.row]
      simp
    have size : kept.size = line.size := by simp [TextLine.size, characters]
    simp only [get_ok_iff.mpr here, if_pos size]
    rw [updateCursorPosition_ok row' (p := ⟨1, s.characterPos.y⟩) (by rw [← at_]; exact row')]
    obtain ⟨u, down, moved'⟩ := movedown_put (c := c)
      (s := { t with characterPos := ⟨1, s.characterPos.y⟩,
                     cursorPos := ⟨ch.chWidth + c.leftMargin, t.cursorPos.y⟩ })
      (by rw [Row, ← at_]; exact row') next
    have lines' : u.lines = above ++ [kept, last] := moved'.lines.trans lines_
    refine ⟨u, down, _, .goes characters wrapped alone unwrapped, lines', ?_, ?_⟩
    · rw [moved'.characterPos, lines']
      simp [caret.row]
    · rw [moved'.characterPos, lines']
      simp [columnIn, alone, columnBelow, TextLine.size, Int.add_comm]

theorem Ended.appends {above : List TextLine} {line : TextLine} (h : AtTextEnd s above line)
    {ch : Character} (ended : Ended above line ch t)
    (sound : Sound t.maxLineCharWidth t.lines) (max_ : t.maxLineCharWidth = s.maxLineCharWidth) :
    Appends s (.chr ch) t := by
  obtain ⟨lines, longer, lines_, row, column⟩ := ended
  refine ⟨max_, ?_, ?_⟩
  · cases longer with
    | @stays kept characters unwrapped =>
      have last := column kept (by simp [lines_])
      rw [lines_] at row
      exact ⟨above, kept, sound, ⟨lines_, by simpa using row, last.le⟩, last⟩
    | @goes kept last characters wrapped alone unwrapped =>
      have last_ := column last (by simp [lines_])
      rw [lines_] at row
      refine ⟨above ++ [kept], last, sound, ⟨by simp [lines_], ?_, last_.le⟩, last_⟩
      simpa using row
  · rw [h.text, lines_]
    cases longer with
    | @stays kept characters unwrapped =>
      rw [layout.text_append (by simp)]
      simp [Layout.text, layout, characters]
    | @goes kept last characters wrapped alone unwrapped =>
      rw [layout.text_append (by simp)]
      simp [Layout.text, Layout.ending, layout, characters, wrapped, alone]

theorem doInsert_end {above : List TextLine} {line : TextLine} (h : AtTextEnd s above line)
    {ch : Character} (fit : CharFits s.maxLineCharWidth ch) :
    Returns (doInsert c ch s) (Appends s (.chr ch)) := by
  obtain ⟨t, done, ended⟩ := doInsert_ended (c := c) h fit
  obtain ⟨t', kept, rest, done', inserts⟩ := doInsert_inserts (c := c) h.sound h.caret fit
  cases Except.ok.inj (done.symm.trans done')
  exact ⟨t, done, ended.appends h (inserts.max ▸ inserts.sound) inserts.max⟩

theorem splitLine_end {above : List TextLine} {line : TextLine} (h : AtTextEnd s above line) :
    Returns (splitLine c line s) (Appends s .newline) := by
  obtain ⟨cur, new, t, split, eq⟩ := splitLine_at (c := c) h.sound h.caret
  have flag : (decide (0 < s.characterPos.x) && line.wrapped) = false := by simp [h.unwrapped]
  have here : t.lines[t.characterPos.y + 1]? = some new := by
    rw [split.caret.lines, split.caret.row]
    simp
  obtain ⟨u, done, moved⟩ := moveToNewLine_moved (c := c) split.caret.inText.row here
  have lines : u.lines = (above ++ [cur]) ++ [new] := by
    rw [moved.lines, split.caret.lines]
    simp
  have column : s.characterPos.x = line.characters.length := h.column
  have curCharacters : cur.characters = line.characters := by
    rw [split.split.curCharacters, column, List.take_length]
  have newCharacters : new.characters = [] := by
    rw [split.split.newCharacters, column, List.drop_length]
  have size : new.size = 0 := by simp [TextLine.size, newCharacters]
  have home : u.characterPos.x = 0 := by
    rw [moved.characterPos, ← Nat.le_zero, ← size]
    exact columnIn_le c new _
  rw [eq, flag]
  refine ⟨u, done, moved.maxLineCharWidth.trans split.max, ?_, ?_⟩
  · refine ⟨above ++ [cur], new, ?_, ⟨lines, ?_, by omega⟩, by omega⟩
    · rw [moved.lines, moved.maxLineCharWidth]
      exact split.sound
    · rw [moved.characterPos, split.position, h.caret.row]
      simp
  · rw [h.text, lines, layout.text_append (by simp), layout.textAbove_append]
    simp [Layout.text, Layout.textAbove, Layout.ending, layout, curCharacters, newCharacters,
      split.split.curWrapped]

theorem enter_end {above : List TextLine} {line : TextLine} (h : AtTextEnd s above line) :
    Returns (enter c s) (Appends s .newline) := by
  by_cases closed : s.characterPos.x = 0 → layout.Ends above
  · rw [enter_split h.caret closed]
    exact splitLine_end h
  · obtain ⟨home, open_⟩ := Classical.not_imp.mp closed
    rcases List.eq_nil_or_concat above with rfl | ⟨before, prev, rfl⟩
    · exact absurd (by simp [Layout.Ends]) open_
    · rw [List.concat_eq_append] at h open_
      have wrapped : prev.wrapped = true := by
        rw [Layout.Ends, List.getLast?_append_of_ne_nil _ (by simp)] at open_
        simpa [layout] using open_
      have lines : s.lines = before ++ prev :: [line] := by simp [h.caret.lines]
      have row := h.caret.row
      rw [List.length_append, List.length_singleton] at row
      have at_ : Below s before prev line [] := by
        refine ⟨lines, ?_⟩
        rw [← home, ← row]
      have empty : line.characters = [] := by
        refine List.length_eq_zero_iff.mp ?_
        rw [← home, h.column]
        rfl
      have sound := h.sound
      rw [lines] at sound
      obtain ⟨fits, lower⟩ := (Sound.append (by simp)).mp sound
      have set_ : s.lines.set before.length { prev with wrapped := false } =
          (before ++ [{ prev with wrapped := false }]) ++ [line] := by
        rw [lines, SplitList.set_length]
        simp
      refine ⟨_, enter_ends_above at_ wrapped, rfl, ?_, ?_⟩
      · refine ⟨before ++ [{ prev with wrapped := false }], line, ?_,
          ⟨set_, row.trans (by simp), h.column.le⟩, h.column⟩
        simp only [set_, List.append_assoc, List.singleton_append]
        exact (Sound.append (by simp)).mpr ⟨fits, .cons (by simp)
          ((lower.fits prev (by simp)).of_same rfl rfl) lower.tail⟩
      · rw [h.text]
        simp only [set_, layout.text_append (List.cons_ne_nil line []), layout.textAbove_append]
        simp [Layout.text, Layout.textAbove, Layout.ending, layout, wrapped, empty]

def copied (newLine : Character) : Sym Character → Character
  | .chr ch => ch
  | .newline => newLine

/-- The text has no character that typing would take for a newline. -/
def Plain (text : List (Sym Character)) : Prop :=
  ∀ ch ∈ WrappedText.characters text, is_new_line ch.ch = false

theorem insertEach_end {newLine : Character} (newLine_ : is_new_line newLine.ch = true)
    {text : List (Sym Character)} (plain : Plain text)
    (fit : ∀ ch ∈ WrappedText.characters text, CharFits s.maxLineCharWidth ch)
    {above : List TextLine} {line : TextLine} (h : AtTextEnd s above line) :
    Returns (insertEach c (text.map (copied newLine)) s) fun t =>
      (∃ above line, AtTextEnd t above line) ∧ layout.text t.lines = layout.text s.lines ++ text := by
  induction text generalizing s above line with
  | nil => exact .ok ⟨⟨above, line, h⟩, by simp⟩
  | cons sym text ih =>
    have first : Returns (insert c (copied newLine sym) s) (Appends s sym) := by
      cases sym with
      | chr ch =>
        have typed : is_new_line ch.ch = false := plain ch (by simp)
        simp only [insert, copied, typed, Bool.false_eq_true, if_false]
        exact doInsert_end h (fit ch (by simp))
      | newline =>
        simp only [insert, copied, newLine_, if_true]
        exact enter_end h
    have later : ∀ ch ∈ WrappedText.characters text, ch ∈ WrappedText.characters (sym :: text) := by
      cases sym <;> simp +contextual
    rw [List.map_cons, insertEach]
    refine first.bind fun t appended => ?_
    obtain ⟨max_, ⟨above', line', h'⟩, text'⟩ := appended
    refine (ih (fun ch mem => plain ch (later ch mem))
      (fun ch mem => max_ ▸ fit ch (later ch mem)) h').mono fun u all => ?_
    refine ⟨all.1, ?_⟩
    rw [all.2, text']
    simp

/-- The text between the two ends of the selection. -/
def selected (s : TextArea) : List (Sym Character) :=
  (layout.before s.lines s.selectedArea.p2.x s.selectedArea.p2.y).drop
    (layout.offset s.lines s.selectedArea.p1.x s.selectedArea.p1.y)

/-- There is a selection, from one place of the text to a place further down. -/
structure Selection (s : TextArea) : Prop where
  present : s.selectedArea.present = true
  first : InText s.lines s.selectedArea.p1
  last : InText s.lines s.selectedArea.p2
  ordered : s.selectedArea.p1.le s.selectedArea.p2 = true

/-- No character in a line is one that typing takes for a newline. -/
def NoNewlines (lines : List TextLine) : Prop :=
  ∀ ch ∈ allCharacters lines, is_new_line ch.ch = false

theorem copied_symbols (newLine : Character) (characters : List Character) :
    (symbols characters).map (copied newLine) = characters := by
  induction characters with
  | nil => rfl
  | cons ch characters ih => simp [copied, ih]

theorem copied_ending (newLine : Character) (line : TextLine) :
    (layout.ending line).map (copied newLine) = if line.wrapped then [] else [newLine] := by
  unfold Layout.ending
  have same : layout.wrapped line = line.wrapped := rfl
  rw [same]
  split <;> rfl

theorem copyBelow_copied (newLine : Character) (p2x y : Nat) {count : Nat} {lines : List TextLine}
    (row : count < lines.length) : copyBelow newLine p2x y count lines =
      .ok ((layout.before lines p2x count).map (copied newLine)) := by
  induction count generalizing y lines with
  | zero =>
    obtain ⟨line, below, rfl⟩ := List.exists_cons_of_ne_nil (List.ne_nil_of_length_pos row)
    rw [layout.before_first, copied_symbols]
    rfl
  | succ count ih =>
    obtain ⟨line, below, rfl⟩ := List.exists_cons_of_ne_nil
      (List.ne_nil_of_length_pos (Nat.zero_lt_of_lt row))
    have rest := ih (y + 1) (Nat.lt_of_succ_lt_succ row)
    rw [copyBelow, rest, layout.before_below, List.map_append, List.map_append, copied_symbols,
      copied_ending]
    rfl

theorem Selection.rows (h : Selection s) : s.selectedArea.p1.y = s.selectedArea.p2.y ∧
      s.selectedArea.p1.x ≤ s.selectedArea.p2.x ∨ s.selectedArea.p1.y < s.selectedArea.p2.y := by
  have ordered := h.ordered
  unfold UIPosition.le at ordered
  by_cases row : s.selectedArea.p1.y = s.selectedArea.p2.y
  · refine .inl ⟨row, ?_⟩
    simp only [if_pos row, Bool.or_eq_true, decide_eq_true_eq] at ordered
    rcases ordered with before | same
    · exact before.le
    · rw [same]
  · refine .inr ?_
    simp only [if_neg row, Bool.or_eq_true, decide_eq_true_eq] at ordered
    rcases ordered with before | same
    · exact before
    · exact absurd (congrArg (·.y) same) row

theorem Selection.before (h : Selection s) :
    ∃ mid, layout.before s.lines s.selectedArea.p2.x s.selectedArea.p2.y =
        layout.before s.lines s.selectedArea.p1.x s.selectedArea.p1.y ++ mid ∧
      copySelection c s =
        .ok { s with copyBuffer := mid.map (copied (newLineCharacter c s)) } := by
  obtain ⟨line1, here, column⟩ := h.first
  obtain ⟨above, below, lines, row1⟩ := SplitList.split_at here
  have row2 := h.last.row
  have start := layout.before_append above (line1 :: below) s.selectedArea.p1.x 0
  rw [Nat.add_zero, ← lines, row1, layout.before_first] at start
  unfold copySelection
  simp only [h.present, if_true, get_ok_iff.mpr here, bind, Except.bind]
  rcases h.rows with ⟨same, ordered⟩ | lower
  · have finish := layout.before_append above (line1 :: below) s.selectedArea.p2.x 0
    rw [Nat.add_zero, ← lines, row1, layout.before_first, same] at finish
    have split : line1.characters.take s.selectedArea.p2.x =
        line1.characters.take s.selectedArea.p1.x ++
          (line1.characters.take s.selectedArea.p2.x).drop s.selectedArea.p1.x := by
      conv_lhs => rw [← List.take_append_drop s.selectedArea.p1.x
        (line1.characters.take s.selectedArea.p2.x), List.take_take, Nat.min_eq_left ordered]
    refine ⟨symbols ((line1.characters.take s.selectedArea.p2.x).drop s.selectedArea.p1.x),
      ?_, ?_⟩
    · rw [start, finish, List.append_assoc, ← Layout.symbols_append]
      exact congrArg (_ ++ symbols ·) split
    · rw [if_pos same, copied_symbols]
  · have apart : s.selectedArea.p1.y ≠ s.selectedArea.p2.y := Nat.ne_of_lt lower
    have drop : s.lines.drop (s.selectedArea.p1.y + 1) = below := by
      rw [lines, ← row1, SplitList.drop_length_succ]
    have inside : s.selectedArea.p2.y - (s.selectedArea.p1.y + 1) < below.length := by
      rw [lines, List.length_append, List.length_cons] at row2
      omega
    have finish := layout.before_append above (line1 :: below) s.selectedArea.p2.x
      (s.selectedArea.p2.y - (s.selectedArea.p1.y + 1) + 1)
    have below_ : above.length + (s.selectedArea.p2.y - (s.selectedArea.p1.y + 1) + 1) =
        s.selectedArea.p2.y := by omega
    rw [below_, ← lines, layout.before_below] at finish
    refine ⟨symbols (line1.characters.drop s.selectedArea.p1.x) ++ layout.ending line1 ++
      layout.before below s.selectedArea.p2.x (s.selectedArea.p2.y - (s.selectedArea.p1.y + 1)),
      ?_, ?_⟩
    · have split : symbols (layout.chars line1) =
          symbols (line1.characters.take s.selectedArea.p1.x) ++
            symbols (line1.characters.drop s.selectedArea.p1.x) := by
        rw [← Layout.symbols_append, List.take_append_drop]
        rfl
      rw [start, finish, split]
      simp [layout]
    · rw [if_neg apart, drop, copyBelow_copied _ _ _ inside, List.map_append, List.map_append,
        copied_symbols, copied_ending]

theorem Selection.copies (h : Selection s) : copySelection c s =
    .ok { s with copyBuffer := (selected s).map (copied (newLineCharacter c s)) } := by
  obtain ⟨mid, before, copies⟩ := h.before (c := c)
  have same : selected s = mid := by
    rw [selected, before, Layout.offset, List.drop_left]
  rw [same]
  exact copies

theorem characters_before (lines : List TextLine) (x y : Nat) :
    ∀ ch ∈ WrappedText.characters (layout.before lines x y), ch ∈ allCharacters lines := by
  induction lines generalizing y with
  | nil => simp [Layout.before, Layout.textAbove]
  | cons line below ih =>
    intro ch mem
    rw [allCharacters_cons, List.mem_append]
    cases y with
    | zero =>
      rw [layout.before_first, WrappedText.characters_symbols] at mem
      exact .inl (List.mem_of_mem_take mem)
    | succ y =>
      rw [layout.before_below] at mem
      simp only [WrappedText.characters_append, WrappedText.characters_symbols,
        WrappedText.characters_ending, List.append_nil, List.mem_append] at mem
      exact mem.imp id (ih y ch)

theorem selected_characters (s : TextArea) :
    ∀ ch ∈ WrappedText.characters (selected s), ch ∈ allCharacters s.lines := by
  intro ch mem
  have split := List.take_append_drop
    (layout.offset s.lines s.selectedArea.p1.x s.selectedArea.p1.y)
    (layout.before s.lines s.selectedArea.p2.x s.selectedArea.p2.y)
  refine characters_before s.lines s.selectedArea.p2.x s.selectedArea.p2.y ch ?_
  rw [← split, WrappedText.characters_append]
  exact List.mem_append_right _ mem

structure Blank (t : TextArea) : Prop where
  lines : LineStructure t
  only : ∃ line, t.lines = [line] ∧ line.characters = []

theorem Blank.atEnd (blank : Blank t) : ∃ line, AtTextEnd t [] line ∧ layout.text t.lines = [] := by
  obtain ⟨line, only, none_⟩ := blank.only
  obtain ⟨sound, line', here, column⟩ := lineStructure_iff.mp blank.lines
  have row : t.characterPos.y = 0 := by
    have row := blank.lines.2.2.2.row
    rw [only, List.length_singleton] at row
    omega
  rw [row, only] at here
  cases here
  have size : line.size = 0 := by simp [TextLine.size, none_]
  refine ⟨line, ⟨sound, ⟨only, row, column⟩, by omega⟩, ?_⟩
  rw [only]
  simp [Layout.text, layout, none_]

theorem AtTextEnd.editor {above : List TextLine} {line : TextLine} (h : AtTextEnd s above line) :
    s.editor = Editor.between (layout.text s.lines) [] := by
  have column : s.characterPos.x = line.characters.length := h.column
  rw [h.caret.editor, h.text, column, List.take_length, List.drop_length]
  rfl

/-- The copied selection, pasted into an empty area, is its text, with the caret behind it. -/
theorem copy_paste (c c' : Config) (s t : TextArea) (typed : NoNewlines s.lines)
    (selection : Selection s) (blank : Blank t)
    (fit : ∀ ch ∈ WrappedText.characters (selected s), CharFits t.maxLineCharWidth ch) :
    ∃ s' t', copySelection c s = .ok s' ∧
      paste c' { t with copyBuffer := s'.copyBuffer } = .ok t' ∧
      t'.editor = ⟨selected s, (selected s).length⟩ := by
  obtain ⟨line, atEnd, empty⟩ := blank.atEnd
  have newLine_ : is_new_line (newLineCharacter c s).ch = true := rfl
  have plain : Plain (selected s) := fun ch mem => typed ch (selected_characters s ch mem)
  obtain ⟨t', done, ⟨above, last, atEnd'⟩, text⟩ := insertEach_end (c := c')
    (s := { t with copyBuffer := (selected s).map (copied (newLineCharacter c s)) })
    newLine_ plain fit ⟨atEnd.sound, ⟨atEnd.caret.lines, atEnd.caret.row, atEnd.caret.column⟩,
      atEnd.column⟩
  refine ⟨_, t', selection.copies, done, ?_⟩
  rw [atEnd'.editor, text, empty]
  simp [Editor.between]

theorem copy_paste_letters :
    let letter : Character := ⟨97, 16, false, false, 0, 0⟩
    let s := { init plainArea with
      lines := [⟨[letter, letter], 24, 16, false⟩, ⟨[letter], 16, 16, false⟩]
      selectedArea := ⟨⟨1, 0⟩, ⟨1, 0⟩, ⟨1, 1⟩, true⟩ }
    ∃ s' t', copySelection plainArea s = .ok s' ∧
      paste plainArea { init plainArea with copyBuffer := s'.copyBuffer } = .ok t' ∧
      t'.editor = ⟨selected s, (selected s).length⟩ :=
  copy_paste plainArea plainArea _ _ (by unfold NoNewlines; decide)
    ⟨rfl, by decide, by decide, by decide⟩ ⟨by decide +kernel, _, rfl, rfl⟩ (by decide)

end TextArea
end StyledText
