import UpanLibs.TextArea.Styled.LinesText
import UpanLibs.TextArea.Styled.LinesRealign

/-!
The text of a `TextArea` after its width has changed. Both loops move characters between
lines and add or erase lines, and a line that is split or swallowed hands its flag on, so
that no newline is lost or made.
-/
namespace StyledText

open TextInput Fallible
open WrappedText (Layout Sym)
open WrappedText.Layout (symbols)

variable {maxLineCharWidth : Nat}

/-- The width has room for an empty line and for each of the characters in a line of
    its own. -/
structure Admits (maxLineCharWidth : Nat) (characters : List Character) : Prop where
  room : MIN_CURSOR_WIDTH_BUFFER ≤ maxLineCharWidth
  fit : ∀ ch ∈ characters, CharFits maxLineCharWidth ch

theorem Drawn.tail {line nextLine line' left : TextLine} {below : List TextLine}
    (drawn : Drawn maxLineCharWidth line nextLine line' left) (wrapped : line.wrapped = true) :
    layout.text (line :: nextLine :: below) =
      symbols line'.characters ++ layout.text (left :: below) := by
  rw [layout.text_line, layout.tailText_wrapped wrapped (by simp), layout.text_line,
    layout.text_line, layout.tailText_same below drawn.leftWrapped, ← List.append_assoc,
    ← List.append_assoc, ← Layout.symbols_append, ← Layout.symbols_append]
  exact congrArg (symbols · ++ _) drawn.all.symm

theorem Drawn.swallowed {line nextLine line' left : TextLine} {below : List TextLine}
    (drawn : Drawn maxLineCharWidth line nextLine line' left) (wrapped : line.wrapped = true)
    (none_ : ¬ 0 < left.size) :
    layout.text (line :: nextLine :: below) =
      symbols line'.characters ++ layout.tailText nextLine below := by
  have empty : left.characters = [] := List.length_eq_zero_iff.mp (Nat.eq_zero_of_not_pos none_)
  rw [drawn.tail wrapped, layout.text_line, layout.tailText_same below drawn.leftWrapped]
  simp [layout, empty]

theorem realignOnWidthIncrease_text (li : Nat) (line : TextLine) (below : List TextLine)
    (sound : Sound maxLineCharWidth (line :: below)) :
    Returns (realignOnWidthIncrease maxLineCharWidth li line below) fun lines =>
      lines ≠ [] ∧ layout.text lines = layout.text (line :: below) := by
  fun_induction realignOnWidthIncrease maxLineCharWidth li line below with
  | case1 li line wrapped => exact absurd (sound.ends line rfl) (by simp [layout, wrapped])
  | case2 li line unwrapped => exact .ok ⟨by simp, rfl⟩
  | case3 li line next below wrapped moved line' left some_ =>
    rename_i ih
    have drawn := drawn (sound.fits line (by simp)) (sound.fits next (by simp))
    obtain ⟨r, rest, more, text⟩ := ih (sound.tail.head drawn.leftFits drawn.leftWrapped)
    have wrapped' : line'.wrapped = true := drawn.wrapped.trans wrapped
    rw [rest]
    refine .ok ⟨by simp, ?_⟩
    rw [layout.text_line, layout.tailText_wrapped wrapped' more, text, drawn.tail wrapped]
    rfl
  | case4 li line next below wrapped moved line' left none_ nextWrapped =>
    rename_i ih
    have drawn := drawn (sound.fits line (by simp)) (sound.fits next (by simp))
    have wrapped' : next.wrapped = true := drawn.leftWrapped.symm.trans nextWrapped
    have more := layout.ends_wrapped_more sound.tail.ends wrapped'
    obtain ⟨r, rest, some_, text⟩ := ih (.cons more drawn.fits sound.tail.tail)
    refine ⟨r, rest, some_, ?_⟩
    rw [text, drawn.swallowed wrapped none_, layout.text_line,
      layout.tailText_wrapped wrapped' more,
      layout.tailText_wrapped (drawn.wrapped.trans wrapped) more]
    rfl
  | case5 li line next wrapped moved line' left none_ nextUnwrapped =>
    have drawn := drawn (sound.fits line (by simp)) (sound.fits next (by simp))
    refine .ok ⟨by simp, ?_⟩
    rw [drawn.swallowed wrapped none_, layout.text_line]
    rfl
  | case6 li line next wrapped moved line' left none_ nextUnwrapped following below =>
    rename_i ih
    have drawn := drawn (sound.fits line (by simp)) (sound.fits next (by simp))
    have unwrapped : next.wrapped = false := by
      rw [← drawn.leftWrapped]
      exact Bool.eq_false_iff.mpr nextUnwrapped
    obtain ⟨r, rest, more, text⟩ := ih sound.tail.tail
    rw [rest]
    refine .ok ⟨by simp, ?_⟩
    rw [drawn.swallowed wrapped none_, layout.text_line, layout.tailText_congr
      (show layout.wrapped { line' with wrapped := false } = layout.wrapped next from
        unwrapped.symm) (by simp [more]) text]
    rfl
  | case7 li line next below unwrapped =>
    rename_i ih
    obtain ⟨r, rest, more, text⟩ := ih sound.tail
    rw [rest]
    refine .ok ⟨by simp, ?_⟩
    rw [layout.text_cons more, text]
    rfl

theorem realignOnWidthDecrease_text (room : MIN_CURSOR_WIDTH_BUFFER ≤ maxLineCharWidth)
    (fontSize : Nat) (carried : List Character) (lines : List TextLine)
    (exact_ : ∀ line ∈ lines, Exact line) (ends : layout.Ends lines)
    (some_ : carried ≠ [] → lines ≠ []) {lines' : List TextLine}
    (done : realignOnWidthDecrease maxLineCharWidth fontSize carried lines = .ok lines') :
    (lines' = [] ↔ lines = []) ∧
      layout.text lines' = symbols carried ++ layout.text lines := by
  induction lines generalizing carried lines' with
  | nil =>
    have none_ : carried = [] := by
      by_contra more
      exact some_ more rfl
    cases done
    simp [none_, Layout.text]
  | cons line below ih =>
    obtain ⟨filled, kept, over_, refilled⟩ := refill room (exact_ line (by simp)) 0 []
      line.characters carried rfl rfl
    have all := refilled.all
    rw [List.nil_append] at all
    have wrapped' : kept.wrapped = line.wrapped := refilled.kept.wrapped.trans refilled.wrapped
    have belowEnds : layout.Ends below := by
      by_cases more : below = []
      · simp [more, Layout.Ends]
      · exact (layout.ends_cons more).mp ends
    have belowExact : ∀ l ∈ below, Exact l := fun l mem => exact_ l (by simp [mem])
    have whole : symbols carried ++ layout.text (line :: below) =
        symbols kept.characters ++ symbols over_ ++ layout.tailText kept below := by
      rw [layout.text_line, layout.tailText_same below wrapped', ← Layout.symbols_append, all,
        Layout.symbols_append, List.append_assoc]
      rfl
    rw [whole]
    simp only [realignOnWidthDecrease, refilled.inserted, refilled.taken, bind,
      Except.bind] at done
    cases over_ with
    | nil =>
      cases further : realignOnWidthDecrease maxLineCharWidth fontSize [] below with
      | error fault => simp [further] at done
      | ok rest =>
        obtain ⟨same, text⟩ := ih [] belowExact belowEnds (by simp) further
        simp only [List.isEmpty_nil, if_true, further, Except.ok.injEq] at done
        subst done
        refine ⟨by simp, ?_⟩
        rw [layout.text_line, layout.tailText_congr rfl same text, Layout.symbols_nil,
          List.append_nil]
        rfl
    | cons next over_ =>
      simp only [List.isEmpty_cons, Bool.false_eq_true, if_false] at done
      by_cases wrapped : kept.wrapped = true
      · have more := layout.ends_wrapped_more ends (wrapped'.symm.trans wrapped)
        rw [if_pos wrapped] at done
        cases further : realignOnWidthDecrease maxLineCharWidth fontSize (next :: over_) below with
        | error fault => simp [further] at done
        | ok rest =>
          obtain ⟨same, text⟩ := ih (next :: over_) belowExact belowEnds (fun _ => more) further
          simp only [further, Except.ok.injEq] at done
          subst done
          have more' : rest ≠ [] := fun none_ => more (same.mp none_)
          refine ⟨by simp, ?_⟩
          rw [layout.text_line, layout.tailText_wrapped wrapped more', text,
            layout.tailText_wrapped wrapped more, List.append_assoc]
          rfl
      · have unwrapped : kept.wrapped = false := Bool.eq_false_iff.mpr wrapped
        rw [if_neg wrapped] at done
        cases new : newLines maxLineCharWidth fontSize (next :: over_).length (next :: over_) with
        | error fault =>
          rw [new] at done
          cases done
        | ok added =>
          rw [new] at done
          cases further : realignOnWidthDecrease maxLineCharWidth fontSize [] below with
          | error fault => simp [further] at done
          | ok rest =>
            obtain ⟨same, text⟩ := ih [] belowExact belowEnds (by simp) further
            obtain ⟨added_, first, others, rfl, -⟩ := newLines_text room fontSize _ _ new
            simp only [further, Except.ok.injEq] at done
            subst done
            have closing_ : closing rest = closing below := by
              rw [← tailText_closing rest unwrapped, ← tailText_closing below unwrapped]
              exact layout.tailText_congr rfl same text
            refine ⟨by simp, ?_⟩
            rw [List.cons_append, layout.text_line, layout.tailText_wrapped rfl (by simp), added_,
              tailText_closing below unwrapped, closing_, List.append_assoc]
            rfl

theorem newLines_charFits (room : MIN_CURSOR_WIDTH_BUFFER ≤ maxLineCharWidth) (fontSize : Nat)
    (lines : Nat) (characters : List Character) {added : List TextLine}
    (done : newLines maxLineCharWidth fontSize lines characters = .ok added) :
    ∀ ch ∈ characters, CharFits maxLineCharWidth ch := by
  induction lines generalizing characters added with
  | zero => cases done
  | succ lines ih =>
    obtain ⟨filled, kept, over_, refilled⟩ := refill room
      (exact_newTextLine fontSize) 0 [] [] characters rfl rfl
    have all := refilled.all
    rw [List.nil_append, List.append_nil] at all
    simp only [newLines, refilled.inserted, refilled.taken, bind, Except.bind] at done
    intro ch mem
    rw [← all] at mem
    cases List.mem_append.mp mem with
    | inl here => exact refilled.kept.fits.charFits ch here
    | inr later =>
      cases over_ with
      | nil => cases later
      | cons next over_ =>
        simp only [List.isEmpty_cons, Bool.false_eq_true, if_false] at done
        cases further : newLines maxLineCharWidth fontSize lines (next :: over_) with
        | error fault =>
          rw [further] at done
          cases done
        | ok below => exact ih _ further ch later

theorem realignOnWidthDecrease_charFits (room : MIN_CURSOR_WIDTH_BUFFER ≤ maxLineCharWidth)
    (fontSize : Nat) (carried : List Character) (lines : List TextLine)
    (exact_ : ∀ line ∈ lines, Exact line) (ends : layout.Ends lines)
    (some_ : carried ≠ [] → lines ≠ []) {lines' : List TextLine}
    (done : realignOnWidthDecrease maxLineCharWidth fontSize carried lines = .ok lines') :
    ∀ ch ∈ carried ++ allCharacters lines, CharFits maxLineCharWidth ch := by
  induction lines generalizing carried lines' with
  | nil =>
    have none_ : carried = [] := by
      by_contra more
      exact some_ more rfl
    simp [none_]
  | cons line below ih =>
    obtain ⟨filled, kept, over_, refilled⟩ := refill room (exact_ line (by simp)) 0 []
      line.characters carried rfl rfl
    have all := refilled.all
    rw [List.nil_append] at all
    have wrapped' : kept.wrapped = line.wrapped := refilled.kept.wrapped.trans refilled.wrapped
    have belowEnds : layout.Ends below := by
      by_cases more : below = []
      · simp [more, Layout.Ends]
      · exact (layout.ends_cons more).mp ends
    have belowExact : ∀ l ∈ below, Exact l := fun l mem => exact_ l (by simp [mem])
    have split : ∀ ch ∈ carried ++ allCharacters (line :: below),
        ch ∈ kept.characters ∨ ch ∈ over_ ++ allCharacters below := by
      intro ch mem
      rw [allCharacters_cons, ← List.append_assoc, ← all] at mem
      simpa [or_assoc] using mem
    intro ch mem
    refine (split ch mem).elim (refilled.kept.fits.charFits ch) fun later => ?_
    simp only [realignOnWidthDecrease, refilled.inserted, refilled.taken, bind,
      Except.bind] at done
    cases over_ with
    | nil =>
      cases further : realignOnWidthDecrease maxLineCharWidth fontSize [] below with
      | error fault => simp [further] at done
      | ok rest => exact ih [] belowExact belowEnds (by simp) further ch later
    | cons next over_ =>
      simp only [List.isEmpty_cons, Bool.false_eq_true, if_false] at done
      by_cases wrapped : kept.wrapped = true
      · have more := layout.ends_wrapped_more ends (wrapped'.symm.trans wrapped)
        rw [if_pos wrapped] at done
        cases further : realignOnWidthDecrease maxLineCharWidth fontSize (next :: over_) below with
        | error fault => simp [further] at done
        | ok rest => exact ih (next :: over_) belowExact belowEnds (fun _ => more) further ch later
      · rw [if_neg wrapped] at done
        cases new : newLines maxLineCharWidth fontSize (next :: over_).length (next :: over_) with
        | error fault =>
          rw [new] at done
          cases done
        | ok added =>
          rw [new] at done
          cases List.mem_append.mp later with
          | inl here => exact newLines_charFits room fontSize _ _ new ch here
          | inr lower =>
            cases further : realignOnWidthDecrease maxLineCharWidth fontSize [] below with
            | error fault => simp [further] at done
            | ok rest => exact ih [] belowExact belowEnds (by simp) further ch lower

/-- Lines of a new width for the text of other ones. -/
structure Rewrapped (maxLineCharWidth : Nat) (lines lines' : List TextLine) : Prop where
  nonempty : lines ≠ [] → lines' ≠ []
  text : layout.text lines' = layout.text lines
  sound : Sound maxLineCharWidth lines'

theorem characters_text (lines : List TextLine) :
    WrappedText.characters (layout.text lines) = allCharacters lines := by
  induction lines with
  | nil => rfl
  | cons line below ih =>
    rw [layout.text_line, Layout.tailText, allCharacters_cons, ← ih]
    split
    next last => simp [last, layout, Layout.text]
    next => simp [layout]

theorem Rewrapped.charFits {lines lines' : List TextLine}
    (rewrapped : Rewrapped maxLineCharWidth lines lines') :
    ∀ ch ∈ allCharacters lines, CharFits maxLineCharWidth ch := by
  rw [← characters_text, ← rewrapped.text, characters_text]
  exact fits_allCharacters rewrapped.sound.fits

theorem realignOnWidthIncrease_rewraps (line : TextLine) (below : List TextLine)
    (sound : Sound maxLineCharWidth (line :: below)) :
    Returns (realignOnWidthIncrease maxLineCharWidth 0 line below)
      (Rewrapped maxLineCharWidth (line :: below)) := by
  have both := (realignOnWidthIncrease_holds 0 line below sound).and
    (realignOnWidthIncrease_text 0 line below sound)
  refine both.mono fun lines h => ?_
  obtain ⟨holds, -, text⟩ := h
  exact ⟨fun _ => holds.nonempty, text, holds.fits, holds.ends⟩

theorem realignOnWidthDecrease_rewraps (fontSize : Nat) {lines : List TextLine}
    (exact_ : ∀ line ∈ lines, Exact line) (ends : layout.Ends lines)
    (admits : Admits maxLineCharWidth (allCharacters lines)) :
    Returns (realignOnWidthDecrease maxLineCharWidth fontSize [] lines)
      (Rewrapped maxLineCharWidth lines) := by
  obtain ⟨lines', done, realigned⟩ := realignOnWidthDecrease_ok admits.room fontSize [] lines
    exact_ ends (by simp) admits.fit
  obtain ⟨-, text⟩ := realignOnWidthDecrease_text admits.room fontSize [] lines exact_ ends
    (by simp) done
  exact ⟨lines', done, realigned.nonempty, text, realigned.sound⟩

theorem Sound.widen {wider : Nat} {lines : List TextLine} (sound : Sound maxLineCharWidth lines)
    (grown : maxLineCharWidth ≤ wider) : Sound wider lines := by
  refine ⟨fun line mem => ?_, sound.ends⟩
  obtain ⟨exact_, within⟩ := sound.fits line mem
  exact ⟨exact_, Nat.le_trans within grown⟩

end StyledText
