import UpanLibs.TextArea.Styled.LinesReflow
import UpanLibs.TextArea.Styled.AreaTyping

/-!
`onResize` of a `TextArea`: the lines are wrapped for the new width and keep their text; the
caret is found again by the number of characters before it, which does not count the ends
of lines.
-/
namespace StyledText

open TextInput Fallible
open WrappedText (Layout Sym Editor EndsInCharacter)
open WrappedText.Layout (symbols)

namespace TextArea

variable {c : Config} {s t : TextArea}

theorem calculateCharCount_eq {lines : List TextLine} {x y : Nat}
    (inside : InText lines ⟨x, y⟩) : calculateCharCount lines x y =
      (WrappedText.characters (layout.before lines x y)).length := by
  obtain ⟨line, here, column⟩ := inside
  induction lines generalizing y with
  | nil => cases here
  | cons first below ih =>
    cases y with
    | zero =>
      cases here
      rw [layout.before_first, calculateCharCount]
      simp [layout, TextLine.size]
    | succ y =>
      have rest := ih (y := y) here column
      rw [layout.before_below, calculateCharCount, rest]
      simp [layout, TextLine.size]

/-- Lines with a new greatest width keep their text, none of them is wider, and the last
    one is not marked wrapped. -/
theorem realign_keeps_text (s : TextArea) (lines : LineStructure s) (fontSize : Nat) {new : Nat}
    (admits : Admits new (allCharacters s.lines)) :
    (s.maxLineCharWidth ≤ new → ∀ line below, s.lines = line :: below →
      Returns (realignOnWidthIncrease new 0 line below) (Rewrapped new s.lines)) ∧
    Returns (realignOnWidthDecrease new fontSize [] s.lines) (Rewrapped new s.lines) := by
  obtain ⟨sound, -⟩ := lineStructure_iff.mp lines
  constructor
  · intro grown line below lines_
    rw [lines_] at sound ⊢
    exact realignOnWidthIncrease_rewraps line below (sound.widen grown)
  · exact realignOnWidthDecrease_rewraps fontSize (fun line mem => (sound.fits line mem).1)
      sound.ends admits

theorem realign_keeps_text_letters :
    let letter : Character := ⟨97, 16, false, false, 0, 0⟩
    let s := { init plainArea with
      maxLineCharWidth := 32
      lines := [⟨[letter, letter, letter], 32, 16, true⟩, ⟨[letter], 16, 16, false⟩] }
    (s.maxLineCharWidth ≤ 32 → ∀ line below, s.lines = line :: below →
      Returns (realignOnWidthIncrease 32 0 line below) (Rewrapped 32 s.lines)) ∧
    Returns (realignOnWidthDecrease 32 16 [] s.lines) (Rewrapped 32 s.lines) :=
  realign_keeps_text _ (by decide) 16 ⟨by decide, by decide⟩

theorem skipLines_before {lines : List TextLine} {charCount : Nat}
    (few : charCount ≤ totalCharacters lines) :
    let before := layout.before lines (skipLines lines charCount).2 (skipLines lines charCount).1
    (WrappedText.characters before).length = charCount ∧ EndsInCharacter before := by
  induction lines generalizing charCount with
  | nil =>
    obtain rfl : charCount = 0 := Nat.le_zero.mp few
    exact ⟨rfl, by simp [EndsInCharacter, Layout.before, Layout.textAbove, skipLines]⟩
  | cons line below ih =>
    unfold skipLines
    by_cases skip : line.size < charCount
    · rw [totalCharacters_cons] at few
      have few' : charCount - line.size ≤ totalCharacters below := by omega
      obtain ⟨count, ends⟩ := ih few'
      simp only [if_pos skip, layout.before_below]
      have size : (layout.chars line).length = line.size := rfl
      refine ⟨by simp [count, size]; omega, ?_⟩
      unfold EndsInCharacter at ends ⊢
      rwa [List.getLast?_append_of_ne_nil]
      intro none_
      rw [none_] at count
      simp at count
      omega
    · have within : charCount ≤ line.characters.length := Nat.not_lt.mp skip
      simp only [if_neg skip, layout.before_first]
      refine ⟨by simp [layout, within], ?_⟩
      unfold EndsInCharacter symbols
      rw [List.getLast?_map]
      cases (List.take charCount (layout.chars line)).getLast? <;> simp

/-- What is to stay of the caret when the area gets another size: the text before it, with
    the pixel position that belongs to that. -/
structure CaretSurvives (c : Config) (s t : TextArea) : Prop where
  text : layout.text t.lines = layout.text s.lines
  before : layout.before t.lines t.characterPos.x t.characterPos.y =
    layout.before s.lines s.characterPos.x s.characterPos.y
  pixelX : getLineBaseX c t.lines t.characterPos.x t.characterPos.y = .ok t.cursorPos.x
  pixelY : getLineBaseY t.lines t.characterPos.y t.scrollY = t.cursorPos.y

theorem lineCharWidth_mono {width width' : Int} (grown : width ≤ width') :
    c.lineCharWidth width ≤ c.lineCharWidth width' := by
  unfold Config.lineCharWidth
  omega

structure Settled (c : Config) (s : TextArea) : Prop where
  lines : LineStructure s
  max : s.maxLineCharWidth = c.lineCharWidth s.bufferWidth

def sized (c : Config) (s : TextArea) (width height : Int) : TextArea :=
  { s with width := width, height := height, maxLineCharWidth := c.lineCharWidth width }

theorem realign_wider (settled : Settled c s) {width : Int} (height : Int)
    (wider : s.bufferWidth < width) : Returns (realign (sized c s width height))
      (Rewrapped (c.lineCharWidth width) s.lines) := by
  obtain ⟨sound, caret⟩ := lineStructure_iff.mp settled.lines
  obtain ⟨line, below, lines⟩ := List.exists_cons_of_ne_nil settled.lines.1
  have grown := lineCharWidth_mono (c := c) (Int.le_of_lt wider)
  rw [← settled.max] at grown
  have sound' := sound.widen grown
  unfold realign sized
  simp only [if_pos wider]
  rw [lines] at sound' ⊢
  exact realignOnWidthIncrease_rewraps line below sound'

theorem realign_same (settled : Settled c s) {width : Int} (height : Int)
    (same : s.bufferWidth = width) : Returns (realign (sized c s width height))
      (Rewrapped (c.lineCharWidth width) s.lines) := by
  obtain ⟨sound, caret⟩ := lineStructure_iff.mp settled.lines
  have kept : realign (sized c s width height) = .ok s.lines := by
    simp [realign, sized, same]
  refine ⟨s.lines, kept, id, rfl, ?_⟩
  rwa [settled.max, same] at sound

theorem realign_narrower_eq {width height : Int} (narrower : width < s.bufferWidth) :
    realign (sized c s width height) =
      realignOnWidthDecrease (c.lineCharWidth width) s.currentFontSize [] s.lines := by
  have not_wider : ¬ s.bufferWidth < width := Int.not_lt.mpr (Int.le_of_lt narrower)
  simp [realign, sized, narrower, not_wider]

theorem realign_rewraps (settled : Settled c s) {width : Int} (height : Int)
    (wide : c.minWidth ≤ width)
    (fit : ∀ ch ∈ allCharacters s.lines, CharFits (c.lineCharWidth width) ch) :
    Returns (realign (sized c s width height)) (Rewrapped (c.lineCharWidth width) s.lines) := by
  obtain ⟨sound, caret⟩ := lineStructure_iff.mp settled.lines
  rcases Int.lt_trichotomy s.bufferWidth width with wider | same | narrower
  · exact realign_wider settled height wider
  · exact realign_same settled height same
  · rw [realign_narrower_eq narrower]
    exact realignOnWidthDecrease_rewraps s.currentFontSize
      (fun line mem => (sound.fits line mem).1) sound.ends ⟨lineCharWidth_room c wide, fit⟩

theorem realign_charFits (settled : Settled c s) {width height : Int}
    (wide : c.minWidth ≤ width) {lines' : List TextLine}
    (done : realign (sized c s width height) = .ok lines') :
    ∀ ch ∈ allCharacters s.lines, CharFits (c.lineCharWidth width) ch := by
  obtain ⟨sound, caret⟩ := lineStructure_iff.mp settled.lines
  rcases Int.lt_trichotomy s.bufferWidth width with wider | same | narrower
  · obtain ⟨lines, -, rewrapped⟩ := realign_wider settled height wider
    exact rewrapped.charFits
  · obtain ⟨lines, -, rewrapped⟩ := realign_same settled height same
    exact rewrapped.charFits
  · rw [realign_narrower_eq narrower] at done
    exact realignOnWidthDecrease_charFits (lineCharWidth_room c wide) s.currentFontSize []
      s.lines (fun line mem => (sound.fits line mem).1) sound.ends (by simp) done

theorem recalculateCursorOnResize_puts {charCount : Nat}
    (few : charCount ≤ totalCharacters s.lines) (some_ : s.lines ≠ []) :
    ∃ t, recalculateCursorOnResize c charCount s = .ok t ∧ t.lines = s.lines ∧
      t.characterPos = ⟨(skipLines s.lines charCount).2, (skipLines s.lines charCount).1⟩ ∧
      getLineBaseX c t.lines t.characterPos.x t.characterPos.y = .ok t.cursorPos.x ∧
      getLineBaseY t.lines t.characterPos.y t.scrollY = t.cursorPos.y := by
  have row := (skipLines_found few some_).row
  obtain ⟨baseX, base⟩ : ∃ baseX, getLineBaseX c s.lines (skipLines s.lines charCount).2
      (skipLines s.lines charCount).1 = .ok baseX := by
    simp [getLineBaseX, get_ok row]
  unfold recalculateCursorOnResize
  simp only [if_pos row, base, bind, Except.bind]
  exact ⟨_, rfl, rfl, rfl, base, rfl⟩

/-- The caret after the lines were wrapped for another width: directly behind as many
    characters as were before it, or at the start of the text. -/
structure Placed (c : Config) (s : TextArea) (t : TextArea) : Prop where
  text : layout.text t.lines = layout.text s.lines
  inside : InText t.lines t.characterPos
  count : (WrappedText.characters
      (layout.before t.lines t.characterPos.x t.characterPos.y)).length =
    (WrappedText.characters (layout.before s.lines s.characterPos.x s.characterPos.y)).length
  ends : EndsInCharacter (layout.before t.lines t.characterPos.x t.characterPos.y)
  pixelX : getLineBaseX c t.lines t.characterPos.x t.characterPos.y = .ok t.cursorPos.x
  pixelY : getLineBaseY t.lines t.characterPos.y t.scrollY = t.cursorPos.y

theorem onResize_placed (settled : Settled c s) {width height : Int}
    (changed : s.bufferWidth ≠ width ∨ s.bufferHeight ≠ height)
    {lines' : List TextLine} (done : realign (sized c s width height) = .ok lines')
    (rewrapped : Rewrapped (c.lineCharWidth width) s.lines lines') :
    Returns (onResize c { s with width := width, height := height }) (Placed c s) := by
  obtain ⟨sound, caret⟩ := lineStructure_iff.mp settled.lines
  have some_ : s.lines ≠ [] := settled.lines.1
  have total : totalCharacters lines' = totalCharacters s.lines := by
    rw [totalCharacters_eq, totalCharacters_eq, ← characters_text, rewrapped.text, characters_text]
  have few : calculateCharCount s.lines s.characterPos.x s.characterPos.y ≤
      totalCharacters lines' := total ▸ calculateCharCount_le _ _ _
  have count := calculateCharCount_eq caret
  have more : lines' ≠ [] := rewrapped.nonempty some_
  obtain ⟨info, row, -⟩ := getLineInfo_ok some_ s.scrollY 0
  unfold sized at done
  unfold onResize
  simp only [if_pos changed, row, done, bind, Except.bind]
  obtain ⟨z, scrolled⟩ := recalculateScrollYOnResize_eq
    (s := { s with
      width := width, height := height, maxLineCharWidth := c.lineCharWidth width,
      bufferWidth := width, bufferHeight := height, lines := lines',
      scrollHeight := calculateHeight lines' })
    (calculateCharCount s.lines 0 (info.lineIndex + 1).toNat)
  rw [scrolled]
  obtain ⟨t, put, lines_, place, pixelX, pixelY⟩ := recalculateCursorOnResize_puts (c := c)
    (s := { s with
      width := width, height := height, maxLineCharWidth := c.lineCharWidth width,
      bufferWidth := width, bufferHeight := height, lines := lines',
      scrollHeight := calculateHeight lines', scrollY := z }) few more
  simp only at lines_ place
  obtain ⟨count', ends⟩ := skipLines_before few
  have inside := skipLines_found few more
  refine ⟨t, put, ?_⟩
  constructor
  case text => rw [lines_, rewrapped.text]
  case inside => rwa [lines_, place]
  case count => rw [lines_, place, count', count]
  case ends => rwa [lines_, place]
  case pixelX => exact pixelX
  case pixelY => exact pixelY

/-- The caret is at the start of the text or directly behind a character. -/
def BehindCharacter (s : TextArea) : Prop :=
  EndsInCharacter (layout.before s.lines s.characterPos.x s.characterPos.y)

theorem before_starts (caret : InText s.lines s.characterPos) :
    ∃ after, layout.text s.lines =
      layout.before s.lines s.characterPos.x s.characterPos.y ++ after := by
  obtain ⟨above, line, below, caret⟩ := caret_of_inText caret
  have split := caret.editor
  have before := layout.before_split above below line s.characterPos.x
  rw [Editor.eq_between_iff] at split
  have text : layout.text s.lines = _ := split.1
  rw [text, caret.lines, caret.row, before]
  exact ⟨_, rfl⟩

theorem Placed.survives_iff (placed : Placed c s t) (caret : InText s.lines s.characterPos) :
    CaretSurvives c s t ↔ BehindCharacter s := by
  constructor
  · intro survives
    unfold BehindCharacter
    rw [← survives.before]
    exact placed.ends
  · intro behind
    obtain ⟨after, text⟩ := before_starts caret
    obtain ⟨after', text'⟩ := before_starts placed.inside
    have whole := text'.symm.trans (placed.text.trans text)
    exact ⟨placed.text, placed.ends.unique behind whole placed.count, placed.pixelX,
      placed.pixelY⟩

theorem onResize_iff (c : Config) (s : TextArea) (settled : Settled c s) {width height : Int}
    (wide : c.minWidth ≤ width) (changed : s.bufferWidth ≠ width ∨ s.bufferHeight ≠ height) :
    (∃ t, onResize c { s with width := width, height := height } = .ok t ∧
      CaretSurvives c s t) ↔
      (∀ ch ∈ allCharacters s.lines, CharFits (c.lineCharWidth width) ch) ∧
        BehindCharacter s := by
  obtain ⟨sound, caret⟩ := lineStructure_iff.mp settled.lines
  constructor
  · rintro ⟨t, resized, survives⟩
    cases found : realign (sized c s width height) with
    | error fault =>
      obtain ⟨info, row, -⟩ := getLineInfo_ok settled.lines.1 s.scrollY 0
      unfold sized at found
      unfold onResize at resized
      simp only [if_pos changed, row, found, bind, Except.bind] at resized
      cases resized
    | ok lines =>
      have fit := realign_charFits settled wide found
      obtain ⟨lines', found', rewrapped⟩ := realign_rewraps settled height wide fit
      obtain ⟨t', resized', placed⟩ := onResize_placed settled changed found' rewrapped
      cases Except.ok.inj (resized.symm.trans resized')
      exact ⟨fit, (placed.survives_iff caret).mp survives⟩
  · rintro ⟨fit, behind⟩
    obtain ⟨lines, done, rewrapped⟩ := realign_rewraps settled height wide fit
    obtain ⟨t, resized, placed⟩ := onResize_placed settled changed done rewrapped
    exact ⟨t, resized, (placed.survives_iff caret).mpr behind⟩

theorem onResize_iff_letter :
    let s := { init plainArea with
      lines := [⟨[⟨97, 16, false, false, 0, 0⟩], 16, 16, false⟩, newTextLine 16]
      characterPos := ⟨1, 0⟩ }
    (∃ t, onResize plainArea { s with width := 320, height := 60 } = .ok t ∧
      CaretSurvives plainArea s t) ↔
      (∀ ch ∈ allCharacters s.lines, CharFits (plainArea.lineCharWidth 320) ch) ∧
        BehindCharacter s :=
  onResize_iff plainArea _ ⟨by decide +kernel, by decide⟩ (by decide) (by decide)

/-- Behind a letter and a newline the caret goes back to the line of the letter, also where
    the lines stay as they are. -/
theorem caret_leaves_new_line :
    ∃ s, Transition.runAll (step plainArea) (init plainArea)
        [.key (.other 97) false, .key (.other Keyboard_ENTER) false] = some s ∧
      LineStructure s ∧ s.characterPos = ⟨0, 1⟩ ∧
      ∃ t, onResize plainArea { s with height := 60 } = .ok t ∧ t.lines = s.lines ∧
        t.characterPos = ⟨1, 0⟩ ∧ ¬ CaretSurvives plainArea s t := by
  have reached : ((Transition.runAll (step plainArea) (init plainArea)
      [.key (.other 97) false, .key (.other Keyboard_ENTER) false]).any fun s =>
      decide (LineStructure s ∧ s.characterPos = ⟨0, 1⟩) &&
        (onResize plainArea { s with height := 60 }).toOption.any fun t =>
          decide (t.lines = s.lines ∧ t.characterPos = ⟨1, 0⟩ ∧
            layout.before t.lines t.characterPos.x t.characterPos.y ≠
              layout.before s.lines s.characterPos.x s.characterPos.y)) = true := by
    decide +kernel
  obtain ⟨s, here, all⟩ := (Option.any_eq_true _ _).mp reached
  obtain ⟨lines, resized⟩ := Bool.and_eq_true_iff.mp all
  obtain ⟨structure_, caret⟩ := of_decide_eq_true lines
  obtain ⟨t, done, kept⟩ := (Option.any_eq_true _ _).mp resized
  obtain ⟨same, place, moved⟩ := of_decide_eq_true kept
  exact ⟨s, here, structure_, caret, t, toOption_some.mp done, same, place,
    fun survives => moved survives.before⟩

end TextArea
end StyledText
