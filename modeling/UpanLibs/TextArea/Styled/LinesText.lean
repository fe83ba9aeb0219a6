import UpanLibs.TextArea.Styled.AreaEdits

/-!
The text that the lines of a `TextArea` stand for, and what `insert` makes of it.
-/
namespace StyledText

open TextInput Fallible
open WrappedText (Layout Sym)
open WrappedText.Layout (symbols)

variable {maxLineCharWidth : Nat}

def Begins (maxLineCharWidth : Nat) (line : TextLine) (characters : List Character) : Prop :=
  ∃ more, line.characters ++ more = characters ∧ ∀ ch ∈ more.head?,
    maxLineCharWidth < MIN_CURSOR_WIDTH_BUFFER + chWidths (line.characters ++ [ch])

theorem Kept.begins {line kept : TextLine} {over_ : List Character}
    (h : Kept maxLineCharWidth line kept over_) : Begins maxLineCharWidth kept line.characters :=
  ⟨over_, h.characters, h.full⟩

theorem Begins.starts {line : TextLine} {characters : List Character}
    (begins : Begins maxLineCharWidth line characters) {before after : List Character}
    (split : characters = before ++ after)
    (fits : MIN_CURSOR_WIDTH_BUFFER + chWidths before ≤ maxLineCharWidth) :
    ∃ rest, line.characters = before ++ rest := by
  obtain ⟨more, all, full⟩ := begins
  rcases List.append_eq_append_iff.mp (all.trans split) with ⟨mid, here, rest⟩ | ⟨mid, here, rest⟩
  · cases mid with
    | nil => exact ⟨[], by simp [here]⟩
    | cons ch mid =>
      have wide := full ch (by simp [rest])
      rw [here] at fits
      simp only [chWidths_append, chWidths_cons, chWidths_nil] at wide fits
      omega
  · exact ⟨mid, here⟩

def closing (below : List TextLine) : List (Sym Character) :=
  if below = [] then [] else .newline :: layout.text below

theorem tailText_closing {line : TextLine} (below : List TextLine)
    (unwrapped : line.wrapped = false) : layout.tailText line below = closing below := by
  have ending : layout.ending line = [.newline] := by simp [Layout.ending, layout, unwrapped]
  simp [Layout.tailText, closing, ending]

theorem newLines_text (room : MIN_CURSOR_WIDTH_BUFFER ≤ maxLineCharWidth) (fontSize : Nat)
    (lines : Nat) (characters : List Character) {added : List TextLine}
    (done : newLines maxLineCharWidth fontSize lines characters = .ok added) :
    (∀ below, layout.text (added ++ below) = symbols characters ++ closing below) ∧
      ∃ first rest, added = first :: rest ∧ Begins maxLineCharWidth first characters := by
  induction lines generalizing characters added with
  | zero => cases done
  | succ lines ih =>
    obtain ⟨filled, kept, over_, refilled⟩ := refill room
      (exact_newTextLine fontSize) 0 [] [] characters rfl rfl
    have all := refilled.characters
    rw [List.nil_append, List.append_nil] at all
    have begins := refilled.kept.begins
    have split := refilled.kept.characters
    rw [all] at begins split
    have unwrapped : kept.wrapped = false := refilled.kept.wrapped.trans refilled.wrapped
    simp only [newLines, refilled.inserted, refilled.taken, bind, Except.bind] at done
    cases over_ with
    | nil =>
      cases done
      rw [List.append_nil] at split
      refine ⟨fun below => ?_, kept, [], rfl, begins⟩
      rw [List.singleton_append, layout.text_line, tailText_closing below unwrapped, ← split]
      rfl
    | cons next over_ =>
      simp only [List.isEmpty_cons, Bool.false_eq_true, if_false] at done
      cases further : newLines maxLineCharWidth fontSize lines (next :: over_) with
      | error fault =>
        rw [further] at done
        cases done
      | ok below =>
        rw [further] at done
        cases done
        obtain ⟨text, first, rest, rfl, -⟩ := ih _ further
        refine ⟨fun after => ?_, _, _, rfl, begins⟩
        rw [List.cons_append, layout.text_line, layout.tailText_wrapped rfl (by simp), text,
          ← List.append_assoc, ← split, Layout.symbols_append]
        rfl

def nextCharacters : List TextLine → List Character
  | [] => []
  | line :: _ => line.characters

/-- The lines from the caret's on after `characters` were inserted at the column `x` of the
    first one, as far as the text and the first two of them go. -/
structure Typed (maxLineCharWidth x : Nat) (characters : List Character) (line : TextLine)
    (below lines : List TextLine) : Prop where
  text : layout.text lines = symbols (line.characters.take x ++ characters ++
    line.characters.drop x) ++ layout.tailText line below
  head : ∃ kept over_ rest, lines = kept :: rest ∧
    kept.characters ++ over_ = line.characters.take x ++ characters ++ line.characters.drop x ∧
    Begins maxLineCharWidth kept (line.characters.take x ++ characters ++ line.characters.drop x) ∧
    (over_ ≠ [] → kept.wrapped = true ∧ ∃ second rest', rest = second :: rest' ∧
      Begins maxLineCharWidth second
        (over_ ++ if line.wrapped then nextCharacters below else []))

theorem insertFrom_step (room : MIN_CURSOR_WIDTH_BUFFER ≤ maxLineCharWidth) (fontSize : Nat)
    (lineX lineY : Nat) (characters : List Character) {line : TextLine} {below : List TextLine}
    (exact_ : Exact line) (column : lineX ≤ line.size)
    (lower : line.wrapped = true → ∃ next rest, below = next :: rest ∧
      ∀ over_ r, insertFrom maxLineCharWidth fontSize 0 (lineY + 1) over_ below = .ok r →
        Typed maxLineCharWidth 0 over_ next rest r.1)
    {r : List TextLine × Nat}
    (done : insertFrom maxLineCharWidth fontSize lineX lineY characters (line :: below) = .ok r) :
    Typed maxLineCharWidth lineX characters line below r.1 := by
  have length : lineX = (line.characters.take lineX).length := by
    rw [List.length_take]
    exact (Nat.min_eq_left column).symm
  have split := (List.take_append_drop lineX line.characters).symm
  obtain ⟨filled, kept, over_, refilled⟩ :=
    refill room exact_ lineX _ _ characters split length
  have all := refilled.all
  have begins := refilled.kept.begins
  rw [refilled.characters] at begins
  have wrapped' : kept.wrapped = line.wrapped := refilled.kept.wrapped.trans refilled.wrapped
  simp only [insertFrom, refilled.inserted, refilled.taken, bind, Except.bind] at done
  cases over_ with
  | nil =>
    cases done
    refine ⟨?_, kept, [], below, rfl, all, begins, by simp⟩
    rw [List.append_nil] at all
    rw [layout.text_line, layout.tailText_same below wrapped', ← all]
    rfl
  | cons ch over_ =>
    simp only [List.isEmpty_cons, Bool.false_eq_true, if_false] at done
    by_cases wrapped : kept.wrapped = true
    · rw [if_pos wrapped] at done
      have here := wrapped'.symm.trans wrapped
      obtain ⟨next, rest, rfl, typed⟩ := lower here
      cases further : insertFrom maxLineCharWidth fontSize 0 (lineY + 1) (ch :: over_)
          (next :: rest) with
      | error fault =>
        rw [further] at done
        cases done
      | ok lines =>
        rw [further] at done
        cases done
        have typed := typed _ _ further
        obtain ⟨second, more, rest', lines', -, begins', -⟩ := typed.head
        refine ⟨?_, kept, ch :: over_, _, rfl, all, begins,
          fun _ => ⟨wrapped, second, rest', lines', ?_⟩⟩
        · rw [layout.text_line, layout.tailText_wrapped wrapped (by simp [lines']), typed.text,
            layout.tailText_wrapped here (by simp), layout.text_line, ← all]
          simp [layout]
        · rw [if_pos here]
          simpa [nextCharacters] using begins'
    · rw [if_neg wrapped] at done
      have unwrapped : line.wrapped = false := by simpa [wrapped'] using wrapped
      cases further : newLines maxLineCharWidth fontSize (ch :: over_).length (ch :: over_) with
      | error fault =>
        rw [further] at done
        cases done
      | ok added =>
        rw [further] at done
        cases done
        obtain ⟨text, first, rest, rfl, begins'⟩ := newLines_text room fontSize _ _ further
        refine ⟨?_, _, ch :: over_, _, rfl, all, begins,
          fun _ => ⟨rfl, first, _, rfl, ?_⟩⟩
        · rw [List.cons_append, layout.text_line, layout.tailText_wrapped rfl (by simp), text,
            tailText_closing below unwrapped, ← all, Layout.symbols_append]
          simp [layout]
        · rw [unwrapped]
          simpa using begins'

theorem insertFrom_text (room : MIN_CURSOR_WIDTH_BUFFER ≤ maxLineCharWidth) (fontSize : Nat)
    (lineX lineY : Nat) (characters : List Character) {line : TextLine} {below : List TextLine}
    (sound : Sound maxLineCharWidth (line :: below)) (column : lineX ≤ line.size)
    {r : List TextLine × Nat}
    (done : insertFrom maxLineCharWidth fontSize lineX lineY characters (line :: below) = .ok r) :
    Typed maxLineCharWidth lineX characters line below r.1 := by
  induction below generalizing line lineX lineY characters r with
  | nil =>
    refine insertFrom_step room fontSize lineX lineY characters (sound.fits line (by simp)).1
      column (fun wrapped => ?_) done
    exact absurd rfl (layout.ends_wrapped_more sound.ends wrapped)
  | cons next below ih =>
    refine insertFrom_step room fontSize lineX lineY characters (sound.fits line (by simp)).1
      column (fun _ => ⟨next, below, rfl, fun over_ r further => ?_⟩) done
    exact ih 0 (lineY + 1) over_ sound.tail (Nat.zero_le _) further

end StyledText
