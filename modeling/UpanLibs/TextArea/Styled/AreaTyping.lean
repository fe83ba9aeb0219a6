import UpanLibs.TextArea.Styled.LinesText
import UpanLibs.TextArea.Styled.AreaInvariant

/-!
Typing a character into a `TextArea`: the character goes to the caret's place in the text,
and the caret goes behind it. Only a character without a width could make it go further, and
the renderer refuses the sizes of such characters.
-/
namespace StyledText

open TextInput Fallible
open WrappedText (Layout Sym Editor Edit)
open WrappedText.Layout (symbols)

/-- The sizes that `Context::Select` lets the renderer draw. -/
def FONT_SIZE_MAX : Nat := 192

def Character.Renderable (ch : Character) : Prop :=
  ¬ (ch.fontSize < 8 ∨ FONT_SIZE_MAX < ch.fontSize)

instance (ch : Character) : Decidable ch.Renderable := inferInstanceAs (Decidable (¬ _))

theorem Character.chWidth_pos {ch : Character} (renderable : ch.Renderable) : 0 < ch.chWidth := by
  obtain ⟨large, small⟩ := not_or.mp renderable
  unfold FONT_SIZE_MAX at small
  have half : 4 ≤ ch.fontSize / 2 ∧ ch.fontSize / 2 ≤ 96 := by omega
  have extra : ch.fontSize / DEFAULT_FONT_SIZE ≤ 12 := by
    unfold DEFAULT_FONT_SIZE
    omega
  simp only [Character.chWidth]
  generalize ch.fontSize / DEFAULT_FONT_SIZE = e at extra
  generalize ch.fontSize / 2 = w at half
  rw [Nat.mod_eq_of_lt]
  · split <;> [split; split] <;> omega
  · split <;> [split; split] <;> omega

theorem columnIn_first (c : Config) {line : TextLine} {ch : Character} {rest : List Character}
    (characters : line.characters = ch :: rest) :
    (columnIn c line (ch.chWidth + c.leftMargin)).1 = 1 ↔ ∀ next ∈ rest.head?, 0 < next.chWidth := by
  have first : ¬ c.leftMargin + (ch.chWidth : Int) > ch.chWidth + c.leftMargin := by omega
  rw [columnIn, characters, columnBelow, if_neg first]
  cases rest with
  | nil => simp [columnBelow]
  | cons next rest =>
    rw [columnBelow]
    by_cases wide : 0 < next.chWidth
    · rw [if_pos (by omega)]
      simpa using wide
    · have less := columnBelow_ge (ch.chWidth + c.leftMargin) rest 2
        (c.leftMargin + ch.chWidth + next.chWidth)
      rw [if_neg (by omega)]
      constructor
      · intro one
        simp only [Nat.zero_add, Nat.reduceAdd] at one
        omega
      · intro all
        exact absurd (all next rfl) wide

theorem Begins.second_head {maxLineCharWidth : Nat} {second : TextLine} {ch : Character}
    {characters : List Character} (begins : Begins maxLineCharWidth second (ch :: characters))
    (fit : CharFits maxLineCharWidth ch) : ∃ after, second.characters = ch :: after ∧
      ((∀ next ∈ after.head?, 0 < next.chWidth) ↔ ∀ next ∈ characters.head?, 0 < next.chWidth) := by
  unfold CharFits at fit
  obtain ⟨after, here⟩ := begins.starts (show ch :: characters = [ch] ++ characters from rfl)
    (by simp only [chWidths_cons, chWidths_nil]; omega)
  refine ⟨after, here, ?_⟩
  obtain ⟨more, all, -⟩ := id begins
  rw [here] at all
  have split : after ++ more = characters := by simpa using all
  cases characters with
  | nil =>
    obtain ⟨rfl, -⟩ := List.append_eq_nil_iff.mp split
    simp
  | cons next characters =>
    by_cases wide : 0 < next.chWidth
    · cases after with
      | nil => simpa using wide
      | cons next' after =>
        cases split
        simp
    · -- a character without a width fits wherever the one before it does
      obtain ⟨after', here'⟩ := begins.starts
        (show ch :: next :: characters = [ch, next] ++ characters from rfl)
        (by simp only [chWidths_cons, chWidths_nil]; omega)
      rw [here] at here'
      obtain rfl : after = next :: after' := by simpa using here'
      simp

namespace TextArea

variable {c : Config} {s t : TextArea}

def editor (s : TextArea) : Editor Character :=
  ⟨layout.text s.lines, layout.offset s.lines s.characterPos.x s.characterPos.y⟩

/-- The caret is in a line with others above and below. -/
structure Caret (s : TextArea) (above : List TextLine) (line : TextLine)
    (below : List TextLine) : Prop where
  lines : s.lines = above ++ line :: below
  row : s.characterPos.y = above.length
  column : s.characterPos.x ≤ line.size

theorem caret_of_inText (caret : InText s.lines s.characterPos) :
    ∃ above line below, Caret s above line below := by
  obtain ⟨line, here, column⟩ := caret
  obtain ⟨above, below, lines, length⟩ := SplitList.split_at here
  exact ⟨above, line, below, lines, length.symm, column⟩

theorem Caret.here {above below : List TextLine} {line : TextLine}
    (caret : Caret s above line below) : s.lines[s.characterPos.y]? = some line := by
  rw [caret.lines, caret.row, SplitList.get_length]

theorem Caret.inText {above below : List TextLine} {line : TextLine}
    (caret : Caret s above line below) : InText s.lines s.characterPos :=
  ⟨line, caret.here, caret.column⟩

theorem Caret.editor {above below : List TextLine} {line : TextLine}
    (caret : Caret s above line below) : s.editor = Editor.between
      (layout.textAbove above ++ symbols (line.characters.take s.characterPos.x))
      (symbols (line.characters.drop s.characterPos.x) ++ layout.tailText line below) := by
  have whole : symbols (layout.chars line) = symbols (line.characters.take s.characterPos.x) ++
      symbols (line.characters.drop s.characterPos.x) := by
    rw [← Layout.symbols_append, List.take_append_drop]
    rfl
  have before := layout.before_split above below line s.characterPos.x
  rw [TextArea.editor, caret.lines, caret.row, layout.text_append (by simp), layout.text_line,
    whole, Layout.offset, before]
  simp [Editor.between, layout]

def StaysInLine (s : TextArea) (ch : Character) : Prop :=
  ∀ line ∈ s.lines[s.characterPos.y]?, MIN_CURSOR_WIDTH_BUFFER +
    chWidths (line.characters.take s.characterPos.x ++ [ch]) ≤ s.maxLineCharWidth

def following (s : TextArea) : List Character :=
  match s.lines[s.characterPos.y]? with
  | none => []
  | some line => line.characters.drop s.characterPos.x ++
      if line.wrapped then nextCharacters (s.lines.drop (s.characterPos.y + 1)) else []

/-- A typed character that goes to the next line is not followed by one without a width. -/
def CaretFollows (s : TextArea) (ch : Character) : Prop :=
  s.StaysInLine ch ∨ ∀ next ∈ s.following.head?, 0 < next.chWidth

theorem lineStructure_iff : LineStructure s ↔
    Sound s.maxLineCharWidth s.lines ∧ InText s.lines s.characterPos := by
  have last (some_ : s.lines ≠ []) : s.lines.getLast? = s.lines[s.lines.length - 1]? := by
    rw [List.getLast?_eq_getElem?]
  constructor
  · rintro ⟨some_, more, fits, caret⟩
    refine ⟨⟨fits, ?_⟩, caret⟩
    intro line here
    rw [last some_] at here
    obtain ⟨row, rfl⟩ := List.getElem?_eq_some_iff.mp here
    by_contra wrapped
    have below := more _ row (by simpa [layout] using wrapped)
    omega
  · rintro ⟨sound, caret⟩
    have some_ : s.lines ≠ [] := List.ne_nil_of_length_pos (Nat.zero_lt_of_lt caret.row)
    refine ⟨some_, ?_, sound.fits, caret⟩
    intro y row wrapped
    by_contra none_
    have unwrapped := sound.ends s.lines[y] (by
      rw [last some_, show s.lines.length - 1 = y by omega]
      exact List.getElem?_eq_getElem row)
    rw [show s.lines[y].wrapped = false from unwrapped] at wrapped
    cases wrapped

/-- The text with the character at the caret, and the caret behind it, in lines that fit the
    same width. -/
structure TypesCharacter (s : TextArea) (ch : Character) (t : TextArea) : Prop where
  max : t.maxLineCharWidth = s.maxLineCharWidth
  lines : LineStructure t
  text : s.editor.Does (.insert (.chr ch)) t.editor

/-- The lines after the insertion, and where `doInsert` puts the caret in them. -/
structure Inserts (c : Config) (s : TextArea) (ch : Character) (above : List TextLine)
    (line : TextLine) (below : List TextLine) (t : TextArea) (kept : TextLine)
    (rest : List TextLine) : Prop where
  max : t.maxLineCharWidth = s.maxLineCharWidth
  lines : t.lines = above ++ kept :: rest
  sound : Sound s.maxLineCharWidth t.lines
  typed : Typed s.maxLineCharWidth s.characterPos.x [ch] line below (kept :: rest)
  column : s.characterPos.x ≤ kept.size
  stays : kept.size ≠ s.characterPos.x →
    t.characterPos = ⟨s.characterPos.x + 1, s.characterPos.y⟩
  moves : kept.size = s.characterPos.x → ∃ second rest', rest = second :: rest' ∧
    t.characterPos = ⟨(columnIn c second (ch.chWidth + c.leftMargin)).1, s.characterPos.y + 1⟩

theorem doInsert_inserts (sound : Sound s.maxLineCharWidth s.lines) {above below : List TextLine}
    {line : TextLine} (caret : Caret s above line below) {ch : Character}
    (fit : CharFits s.maxLineCharWidth ch) :
    ∃ t kept rest, doInsert c ch s = .ok t ∧ Inserts c s ch above line below t kept rest := by
  have room : MIN_CURSOR_WIDTH_BUFFER ≤ s.maxLineCharWidth := Nat.le_of_add_left_le fit
  have sound' := sound
  rw [caret.lines] at sound'
  obtain ⟨aboveFits, sound'⟩ := (Sound.append (by simp)).mp sound'
  have drop : s.lines.drop s.characterPos.y = line :: below := by
    rw [caret.lines, caret.row, List.drop_left]
  have take : s.lines.take s.characterPos.y = above := by
    rw [caret.lines, caret.row, List.take_left]
  obtain ⟨r, inserted, done⟩ := insertFrom_ok room s.currentFontSize s.characterPos.x
    s.characterPos.y [ch] (List.cons_ne_nil line below) sound'.fits sound'.ends
    (by simpa using caret.column) (by simpa using fit)
  have typed := insertFrom_text room _ _ _ [ch] sound' caret.column inserted
  obtain ⟨kept, over_, rest, lines', all, -, further⟩ := typed.head
  have column := done.column kept (by rw [lines']; rfl)
  have row : s.characterPos.y < (above ++ r.1).length := by
    rw [lines', caret.row]
    simp
  obtain ⟨t, added, scrolled⟩ := linesAdded_ok
    (show Row { s with lines := above ++ r.1 } from row) r.2
  have moved := scrolled.moved
  have at_ : t.characterPos = s.characterPos := moved.characterPos
  have lines_ : t.lines = above ++ kept :: rest := by rw [moved.lines, lines']
  have here : t.lines[s.characterPos.y]? = some kept := by
    rw [lines_, caret.row, SplitList.get_length]
  have rowt : t.Row := by
    rw [Row, at_, moved.lines]
    exact row
  have sound₁ : Sound s.maxLineCharWidth t.lines := by
    rw [moved.lines]
    exact (Sound.append done.nonempty).mpr ⟨aboveFits, done.fits, done.ends⟩
  have max_ : t.maxLineCharWidth = s.maxLineCharWidth := moved.maxLineCharWidth
  rw [lines'] at typed
  unfold doInsert
  simp only [drop, take, inserted, added, get_ok_iff.mpr here, bind, Except.bind]
  by_cases full : kept.size = s.characterPos.x
  · rw [if_pos full]
    have some_ : over_ ≠ [] := by
      rintro rfl
      have total := congrArg List.length all
      simp only [List.append_nil, List.length_append, List.length_take, List.length_drop,
        List.length_cons, List.length_nil] at total
      have size : kept.characters.length = kept.size := rfl
      have column_ := caret.column
      have size_ : line.characters.length = line.size := rfl
      omega
    obtain ⟨wrapped, second, rest', rfl, begins⟩ := further some_
    have next : t.lines[s.characterPos.y + 1]? = some second := by
      rw [lines_, caret.row]
      simp
    rw [updateCursorPosition_ok rowt (p := ⟨1, s.characterPos.y⟩) (by rw [← at_]; exact rowt)]
    obtain ⟨u, down, moved'⟩ := movedown_put (c := c)
      (s := { t with characterPos := ⟨1, s.characterPos.y⟩,
                     cursorPos := ⟨ch.chWidth + c.leftMargin, t.cursorPos.y⟩ })
      (by rw [Row, ← at_]; exact rowt) next
    refine ⟨u, kept, _, down, ?_, by rw [moved'.lines]; exact lines_, ?_, typed, column,
      fun apart => absurd full apart, fun _ => ⟨second, rest', rfl, moved'.characterPos⟩⟩
    · rw [moved'.maxLineCharWidth]
      exact max_
    · rw [moved'.lines]
      exact sound₁
  · rw [if_neg full, updateCursorPosition_ok rowt (by rw [← at_]; exact rowt)]
    exact ⟨_, kept, rest, rfl, max_, lines_, sound₁, typed, column, fun _ => rfl,
      fun same => absurd same full⟩

variable {ch : Character} {above below : List TextLine} {line : TextLine} {kept : TextLine}
  {rest : List TextLine}

theorem Inserts.fits (inserts : Inserts c s ch above line below t kept rest) :
    MIN_CURSOR_WIDTH_BUFFER + chWidths kept.characters ≤ s.maxLineCharWidth := by
  obtain ⟨exact_, within⟩ := inserts.sound.fits kept (by simp [inserts.lines])
  unfold Exact at exact_
  omega

theorem Caret.take_length (caret : Caret s above line below) :
    (line.characters.take s.characterPos.x).length = s.characterPos.x := by
  rw [List.length_take]
  exact Nat.min_eq_left caret.column

theorem Inserts.starts (caret : Caret s above line below)
    (inserts : Inserts c s ch above line below t kept rest)
    (more : kept.size ≠ s.characterPos.x) :
    ∃ after, kept.characters = line.characters.take s.characterPos.x ++ [ch] ++ after := by
  obtain ⟨_, over_, _, lines, all, -, -⟩ := inserts.typed.head
  cases lines
  have length := caret.take_length
  have column := inserts.column
  have size : kept.characters.length = kept.size := rfl
  rcases List.append_eq_append_iff.mp all with ⟨mid, here, -⟩ | ⟨mid, here, -⟩
  · have total := congrArg List.length here
    rw [List.length_append, List.length_append, length, List.length_singleton, size] at total
    have none_ : mid = [] := List.length_eq_zero_iff.mp (by omega)
    exact ⟨[], by rw [here, none_]; simp⟩
  · exact ⟨mid, here⟩

theorem Inserts.stays_iff (caret : Caret s above line below)
    (inserts : Inserts c s ch above line below t kept rest) :
    s.StaysInLine ch ↔ kept.size ≠ s.characterPos.x := by
  have length := caret.take_length
  constructor
  · intro stays same
    have fits := stays line caret.here
    obtain ⟨_, _, _, lines, -, begins, -⟩ := inserts.typed.head
    cases lines
    obtain ⟨after, characters⟩ := begins.starts rfl fits
    have size : kept.characters.length = kept.size := rfl
    rw [characters] at size
    simp only [List.length_append, length, List.length_singleton] at size
    omega
  · intro more line' here
    cases Option.some.inj (caret.here.symm.trans here)
    obtain ⟨after, characters⟩ := inserts.starts caret more
    have fits := inserts.fits
    rw [characters, chWidths_append] at fits
    omega

theorem Inserts.caret_stays (caret : Caret s above line below)
    (inserts : Inserts c s ch above line below t kept rest)
    (more : kept.size ≠ s.characterPos.x) :
    InText t.lines t.characterPos ∧
      t.editor.caret = (layout.textAbove above).length + (s.characterPos.x + 1) := by
  obtain ⟨after, characters⟩ := inserts.starts caret more
  have length := caret.take_length
  have at_ := inserts.stays more
  have column := inserts.column
  have here : Caret t above kept rest :=
    ⟨inserts.lines, by rw [at_, caret.row], by rw [at_]; simp only; omega⟩
  refine ⟨here.inText, ?_⟩
  have size : kept.characters.length = kept.size := rfl
  rw [here.editor, at_]
  simp only [Editor.between, List.length_append, Layout.symbols_length, List.length_take, size]
  omega

theorem Inserts.next_line (caret : Caret s above line below)
    (inserts : Inserts c s ch above line below t kept rest)
    (full : kept.size = s.characterPos.x) :
    kept.wrapped = true ∧ ∃ second rest', rest = second :: rest' ∧
      Begins s.maxLineCharWidth second (ch :: s.following) := by
  obtain ⟨_, over_, _, lines, all, -, further⟩ := inserts.typed.head
  cases lines
  have length := caret.take_length
  have size : kept.characters.length = kept.size := rfl
  rw [List.append_assoc] at all
  obtain ⟨-, over'⟩ := List.append_inj all (by rw [size, full, length])
  obtain ⟨wrapped, second, rest', rfl, begins⟩ := further (by simp [over'])
  refine ⟨wrapped, second, rest', rfl, ?_⟩
  have below_ : s.lines.drop (s.characterPos.y + 1) = below := by
    rw [caret.lines, caret.row]
    simp
  rw [over'] at begins
  rw [following, caret.here]
  simpa [below_] using begins

theorem Inserts.caret_moves (caret : Caret s above line below)
    (inserts : Inserts c s ch above line below t kept rest) (fit : CharFits s.maxLineCharWidth ch)
    (full : kept.size = s.characterPos.x) :
    InText t.lines t.characterPos ∧
      (t.editor.caret = (layout.textAbove above).length + (s.characterPos.x + 1) ↔
        ∀ next ∈ s.following.head?, 0 < next.chWidth) := by
  obtain ⟨wrapped, second, rest', rfl, begins⟩ := inserts.next_line caret full
  obtain ⟨_, _, same, at_⟩ := inserts.moves full
  cases same
  obtain ⟨after, characters, head⟩ := begins.second_head fit
  have inside := columnIn_le c second (ch.chWidth + c.leftMargin)
  have here : Caret t (above ++ [kept]) second rest' := by
    refine ⟨?_, ?_, by rw [at_]; exact inside⟩
    · rw [inserts.lines]
      simp
    · rw [at_, caret.row]
      simp
  refine ⟨here.inText, ?_⟩
  have ending : layout.ending kept = [] := by simp [Layout.ending, layout, wrapped]
  have size : kept.characters.length = kept.size := rfl
  have size' : second.characters.length = second.size := rfl
  have above_ : (layout.textAbove (above ++ [kept])).length =
      (layout.textAbove above).length + s.characterPos.x := by
    rw [layout.textAbove_append, Layout.textAbove, ending]
    simp [Layout.textAbove, layout, size, full]
  rw [← head, ← columnIn_first c characters, here.editor, at_]
  simp only [Editor.between, List.length_append, Layout.symbols_length, List.length_take, above_,
    size']
  omega

theorem typing_iff (c : Config) (s : TextArea) (ch : Character) (lines : LineStructure s)
    (fit : CharFits s.maxLineCharWidth ch) :
    (∃ t, doInsert c ch s = .ok t ∧ TypesCharacter s ch t) ↔ CaretFollows s ch := by
  obtain ⟨sound, caret⟩ := lineStructure_iff.mp lines
  obtain ⟨above, line, below, caret⟩ := caret_of_inText caret
  obtain ⟨t, kept, rest, done, inserts⟩ := doInsert_inserts (c := c) sound caret fit
  have text : t.editor.text = layout.textAbove above ++ (symbols (line.characters.take
      s.characterPos.x) ++ [.chr ch] ++ symbols (line.characters.drop s.characterPos.x)) ++
        layout.tailText line below := by
    rw [editor, inserts.lines, layout.text_append (by simp), inserts.typed.text]
    simp
  have does : s.editor.Does (.insert (.chr ch)) t.editor ↔
      t.editor.caret = (layout.textAbove above).length + (s.characterPos.x + 1) := by
    have length := caret.take_length
    rw [caret.editor, Editor.insert_iff]
    constructor
    · intro same
      rw [same]
      simp [Editor.between, length]
    · intro place
      have both : t.editor = ⟨t.editor.text, t.editor.caret⟩ := rfl
      rw [both, text, place]
      simp [Editor.between, length]
  have same_max := inserts.max
  constructor
  · rintro ⟨t', done', types⟩
    obtain rfl := Except.ok.inj (done.symm.trans done')
    have place := does.mp types.text
    by_cases full : kept.size = s.characterPos.x
    · exact .inr ((inserts.caret_moves caret fit full).2.mp place)
    · exact .inl ((inserts.stays_iff caret).mpr full)
  · intro follows
    have placed : InText t.lines t.characterPos ∧ s.editor.Does (.insert (.chr ch)) t.editor := by
      by_cases full : kept.size = s.characterPos.x
      · obtain ⟨inside, place⟩ := inserts.caret_moves caret fit full
        have stays := (inserts.stays_iff caret).not.mpr (not_not.mpr full)
        exact ⟨inside, does.mpr (place.mpr (follows.resolve_left stays))⟩
      · obtain ⟨inside, place⟩ := inserts.caret_stays caret full
        exact ⟨inside, does.mpr place⟩
    exact ⟨t, done, same_max, lineStructure_iff.mpr ⟨same_max ▸ inserts.sound, placed.1⟩, placed.2⟩

theorem caretFollows_of_renderable (drawn : ∀ ch ∈ allCharacters s.lines, ch.Renderable)
    (ch : Character) : CaretFollows s ch := by
  refine .inr fun next first => Character.chWidth_pos (drawn next ?_)
  have member := List.mem_of_mem_head? first
  unfold following at member
  split at member
  · cases member
  next line here =>
    have listed := List.mem_of_getElem? here
    rcases List.mem_append.mp member with behind | below
    · exact List.mem_flatMap.mpr ⟨line, listed, List.mem_of_mem_drop behind⟩
    · split at below
      · cases rest : s.lines.drop (s.characterPos.y + 1) with
        | nil => simp [rest, nextCharacters] at below
        | cons second lines =>
          have listed : second ∈ s.lines :=
            List.mem_of_mem_drop (rest ▸ List.mem_cons_self)
          rw [rest] at below
          exact List.mem_flatMap.mpr ⟨second, listed, below⟩
      · cases below

theorem typing_inserts (c : Config) (s : TextArea) (ch : Character) (lines : LineStructure s)
    (drawn : ∀ ch ∈ allCharacters s.lines, ch.Renderable) (fit : CharFits s.maxLineCharWidth ch) :
    ∃ t, doInsert c ch s = .ok t ∧ TypesCharacter s ch t :=
  (typing_iff c s ch lines fit).mpr (caretFollows_of_renderable drawn ch)

theorem typing_inserts_full :
    let ch : Character := ⟨98, 16, false, false, 0, 0⟩
    let s := { init plainArea with
      lines := [⟨List.replicate 47 ⟨97, 16, false, false, 0, 0⟩, 384, 16, false⟩]
      characterPos := ⟨46, 0⟩ }
    ∃ t, doInsert plainArea ch s = .ok t ∧ TypesCharacter s ch t :=
  typing_inserts plainArea _ ⟨98, 16, false, false, 0, 0⟩ (by decide +kernel) (by decide +kernel)
    (by decide +kernel)

end TextArea
end StyledText
